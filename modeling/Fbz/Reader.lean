import Fbz.Lib.Transition
import Fbz.Error

/-!
# The pull reader

`Reader` runs a decoder on a thread of its own and hands its output out read by read. Chunks cross
a rendezvous channel, the result of the decoder a second channel, and the end of the thread is
seen through `join`; the two threads take steps in any order. A caller makes read calls of any
size, one after the other.
-/

namespace Fbz.Reader

open Transition
set_option linter.unusedSimpArgs false

/-- A chunk on its way through the pipe; only chunks with something left to read are sent. -/
structure Chunk where
  bytes : List UInt8
  offset : Nat
  rest : offset < bytes.length

/-- `PipeWriter::send` up to the rendezvous. -/
def send (bytes : List UInt8) (offset : Nat) : Except IoError (Option Chunk) :=
  if offset ≤ bytes.length then
    if h : offset < bytes.length then .ok (some ⟨bytes, offset, h⟩) else .ok none
  else .error ⟨.invalidInput, "owned chunk start exceeds its length"⟩

/-- A call the decoder makes on its `PipeWriter`. -/
inductive Write
  | borrowed (bytes : List UInt8)
  | owned (bytes : List UInt8) (start : Nat) (valid : start ≤ bytes.length)

def Write.run : Write → Except IoError (Option Chunk)
  | .borrowed bytes => send bytes 0
  | .owned bytes start _ => send bytes start

/-- The decoded bytes of the call. -/
def Write.suffix : Write → List UInt8
  | .borrowed bytes => bytes
  | .owned bytes start _ => bytes.drop start

/-- `read_error`. -/
def readError : Error → IoError
  | .io error => error
  | .invalidConfiguration message => ⟨.invalidInput, message⟩
  | error => ⟨.invalidData, error.text⟩

def workerPanicked : IoError := ⟨.other, "fbz decoder worker panicked"⟩

def stoppedEarly : IoError := ⟨.other, "fbz decoder stopped without reporting completion"⟩

/-- What the decoder thread does: its writes, the result it reports if it gets that far, and
whether it ends in a panic. -/
structure Decoder where
  writes : List Write
  report : Option (Result Unit)
  panics : Bool

structure PipeReader where
  chunk : List UInt8 := []
  offset : Nat := 0

/-- The copy at the end of `PipeReader::read`. -/
def PipeReader.copy (p : PipeReader) (size : Nat) : List UInt8 × PipeReader :=
  let count := min size (p.chunk.length - p.offset)
  ((p.chunk.drop p.offset).take count, { p with offset := p.offset + count })

inductive Status
  | reading
  | eof
  | failed (error : IoError)

/-- Where the reading thread is: between calls, at the head of the loop in `read`, blocked on the
result channel, or joining the worker with what came out of that channel. -/
inductive Phase
  | idle
  | looping (size : Nat)
  | awaiting (size : Nat)
  | joining (size : Nat) (result : Option (Result Unit))

/-- Both threads and the channels between them. -/
structure System where
  writes : List Write
  outputOpen : Bool := true
  reported : Bool := false
  slot : Option (Result Unit) := none
  resultOpen : Bool := true
  ended : Bool := false
  pipe : Option PipeReader := some {}
  /-- `Reader` still owns the join handle -/
  worker : Bool := true
  status : Status := .reading
  phase : Phase := .idle
  /-- history: buffer sizes and results of the read calls -/
  log : List (Nat × Except IoError (List UInt8)) := []

namespace System

/-- The call with a buffer of this size returns. -/
def answer (s : System) (size : Nat) (result : Except IoError (List UInt8)) : System :=
  { s with phase := .idle, log := s.log ++ [(size, result)] }

/-- `read` once `PipeReader::read` has something: nothing copied means the result is due. -/
def afterCopy (s : System) (size : Nat) (pipe : PipeReader) : System :=
  if (pipe.copy size).1.isEmpty then
    { s with pipe := some (pipe.copy size).2, phase := .awaiting size }
  else { s with pipe := some (pipe.copy size).2 }.answer size (.ok (pipe.copy size).1)

end System

/-- `finish` on a result and `disconnected` without one, after `join_worker`. -/
def conclude (d : Decoder) (worker : Bool) : Option (Result Unit) → Except IoError Unit
  | some (.error error) => .error (readError error)
  | some (.ok ()) => if worker && d.panics then .error workerPanicked else .ok ()
  | none => .error (if worker && d.panics then workerPanicked else stoppedEarly)

/-- One step of either thread. -/
inductive Step (d : Decoder) : System → System → Prop
  | skip {s w rest} (next : s.writes = w :: rest) (empty : w.run = .ok none) :
      Step d s { s with writes := rest }
  | dropOutput {s} (done : s.writes = []) (here : s.outputOpen = true) :
      Step d s { s with outputOpen := false }
  | report {s r} (outcome : d.report = some r) (closed : s.outputOpen = false)
      (once : s.reported = false) : Step d s { s with slot := some r, reported := true }
  | dropResult {s} (done : s.writes = []) (complete : d.report.isSome → s.reported = true)
      (here : s.resultOpen = true) : Step d s { s with resultOpen := false }
  | exit {s} (closed : s.outputOpen = false) (closed' : s.resultOpen = false)
      (here : s.ended = false) : Step d s { s with ended := true }
  | callEmpty {s} (free : s.phase = .idle) : Step d s (s.answer 0 (.ok []))
  | call {s size} (free : s.phase = .idle) (pos : 0 < size) :
      Step d s { s with phase := .looping size }
  | atEof {s size} (loop : s.phase = .looping size) (status : s.status = .eof) :
      Step d s (s.answer size (.ok []))
  | atFailure {s size error} (loop : s.phase = .looping size) (status : s.status = .failed error) :
      Step d s (s.answer size (.error error))
  | copy {s size p} (loop : s.phase = .looping size) (status : s.status = .reading)
      (pipe : s.pipe = some p) (left : p.offset ≠ p.chunk.length) :
      Step d s (s.afterCopy size p)
  | receive {s size p w rest c} (loop : s.phase = .looping size) (status : s.status = .reading)
      (pipe : s.pipe = some p) (drained : p.offset = p.chunk.length)
      (next : s.writes = w :: rest) (sent : w.run = .ok (some c)) :
      Step d s ({ s with writes := rest }.afterCopy size ⟨c.bytes, c.offset⟩)
  | disconnected {s size p} (loop : s.phase = .looping size) (status : s.status = .reading)
      (pipe : s.pipe = some p) (drained : p.offset = p.chunk.length)
      (closed : s.outputOpen = false) : Step d s { s with phase := .awaiting size }
  | takeResult {s size r} (here : s.phase = .awaiting size) (there : s.slot = some r) :
      Step d s { s with slot := none, pipe := none, phase := .joining size (some r) }
  | lostResult {s size} (here : s.phase = .awaiting size) (empty : s.slot = none)
      (closed : s.resultOpen = false) :
      Step d s { s with pipe := none, phase := .joining size none }
  | finish {s size result} (here : s.phase = .joining size result)
      (joined : s.worker = true → s.ended = true)
      (outcome : conclude d s.worker result = .ok ()) :
      Step d s { s with worker := false, status := .eof, phase := .looping size }
  | fail {s size result error} (here : s.phase = .joining size result)
      (joined : s.worker = true → s.ended = true)
      (outcome : conclude d s.worker result = .error error) :
      Step d s ({ s with worker := false, status := .failed error }.answer size (.error error))

/-- A reader just opened on the decoder. -/
def Decoder.start (d : Decoder) : System := { writes := d.writes }

/-- What a decoder comes to as a reader sees it. -/
def Decoder.verdict (d : Decoder) : Except IoError Unit := conclude d true d.report

def Decoder.output (d : Decoder) : List UInt8 := d.writes.flatMap Write.suffix

/-- Bytes the read calls have returned. -/
def delivered (log : List (Nat × Except IoError (List UInt8))) : List UInt8 :=
  log.flatMap fun entry => entry.2.toOption.getD []

/-- Bytes received and not yet returned. -/
def System.pending (s : System) : List UInt8 := s.pipe.elim [] fun p => p.chunk.drop p.offset

/-- A read that returns bytes, at most as many as asked for and none only when asked for none. -/
def Delivers (entry : Nat × Except IoError (List UInt8)) : Prop :=
  ∃ bytes, entry.2 = .ok bytes ∧ bytes.length ≤ entry.1 ∧ (0 < entry.1 → bytes ≠ [])

/-- A read after the end of a stream that came to `verdict`. -/
def Ends (verdict : Except IoError Unit) (entry : Nat × Except IoError (List UInt8)) : Prop :=
  entry.2 = if entry.1 = 0 then .ok [] else verdict.map fun _ => []

def Status.verdict : Status → Option (Except IoError Unit)
  | .reading => none
  | .eof => some (.ok ())
  | .failed error => some (.error error)

def Phase.joins : Phase → Option (Option (Result Unit))
  | .joining _ result => some result
  | _ => none

def Phase.size : Phase → Option Nat
  | .idle => none
  | .looping size | .awaiting size | .joining size _ => some size

/-- The reader has seen the end of the chunks and has not concluded yet. -/
def Phase.drained : Phase → Bool
  | .awaiting _ | .joining _ _ => true
  | .idle | .looping _ => false

private theorem Write.run_eq_some {w : Write} {c : Chunk} (h : w.run = .ok (some c)) :
    c.bytes.drop c.offset = w.suffix := by
  cases w <;> simp only [Write.run, send] at h <;> split at h <;> (try split at h) <;>
    simp only [Except.ok.injEq, Option.some.injEq, reduceCtorEq] at h <;> subst h <;> rfl

private theorem Write.run_eq_none {w : Write} (h : w.run = .ok none) : w.suffix = [] := by
  cases w with
  | borrowed bytes =>
    simp only [Write.run, send, Nat.zero_le, if_true] at h
    split at h
    · cases h
    · exact (show bytes = [] from List.eq_nil_of_length_eq_zero (by omega))
  | owned bytes start valid =>
    simp only [Write.run, send, if_pos valid] at h
    split at h
    · cases h
    · exact List.drop_eq_nil_of_le (by omega)

private theorem Write.run_cases (w : Write) : w.run = .ok none ∨ ∃ c, w.run = .ok (some c) := by
  cases w with
  | borrowed bytes =>
    simp only [Write.run, send, Nat.zero_le, if_true]
    split
    · exact .inr ⟨_, rfl⟩
    · exact .inl rfl
  | owned bytes start valid =>
    simp only [Write.run, send, if_pos valid]
    split
    · exact .inr ⟨_, rfl⟩
    · exact .inl rfl

private theorem PipeReader.copy_append {p : PipeReader} (size : Nat)
    (le : p.offset ≤ p.chunk.length) :
    (p.copy size).1 ++ (p.copy size).2.chunk.drop (p.copy size).2.offset =
      p.chunk.drop p.offset ∧ (p.copy size).1.length ≤ size ∧
      (p.copy size).2.offset ≤ (p.copy size).2.chunk.length := by
  simp only [copy]
  refine ⟨?_, ?_, by omega⟩
  · rw [← List.drop_drop, List.take_append_drop]
  · rw [List.length_take]
    omega

private theorem PipeReader.copy_ne_nil {p : PipeReader} {size : Nat} (pos : 0 < size)
    (left : p.offset < p.chunk.length) : (p.copy size).1 ≠ [] := by
  refine List.ne_nil_of_length_pos ?_
  rw [copy, List.length_take, List.length_drop]
  omega

private theorem System.afterCopy_eq {s : System} {p : PipeReader} {size : Nat} (pos : 0 < size)
    (left : p.offset < p.chunk.length) :
    s.afterCopy size p =
      { s with pipe := some (p.copy size).2 }.answer size (.ok (p.copy size).1) := by
  have hne := PipeReader.copy_ne_nil pos left
  simp [afterCopy, hne]

private theorem delivered_append (log : List (Nat × Except IoError (List UInt8))) (size : Nat)
    (result : Except IoError (List UInt8)) :
    delivered (log ++ [(size, result)]) = delivered log ++ result.toOption.getD [] := by
  simp [delivered]

/-- What holds between the threads wherever a run gets to. -/
structure Sane (d : Decoder) (s : System) : Prop where
  conserve : delivered s.log ++ s.pending ++ s.writes.flatMap Write.suffix = d.output
  offset : ∀ p, s.pipe = some p → p.offset ≤ p.chunk.length
  closed : s.outputOpen = false → s.writes = []
  reported : s.reported = true → s.outputOpen = false
  resultClosed : s.resultOpen = false → s.writes = [] ∧ (d.report.isSome → s.reported = true)
  slot : ∀ r, s.slot = some r → d.report = some r ∧ s.reported = true
  unread : s.status.verdict = none → s.phase.joins = none → s.reported = true →
    s.slot = d.report
  owned : s.status.verdict = none → s.worker = true ∧ (s.phase.joins = none → s.pipe.isSome)
  sized : ∀ size, s.phase.size = some size → 0 < size
  drained : s.phase.drained = true →
    s.outputOpen = false ∧ s.pending = [] ∧ s.status.verdict = none
  joins : ∀ result, s.phase.joins = some result →
    result = d.report ∧ (d.report.isSome → s.reported = true)
  concluded : ∀ verdict, s.status.verdict = some verdict →
    verdict = d.verdict ∧ s.pending = [] ∧ s.writes = []

private theorem sane_start (d : Decoder) : Sane d d.start := by
  constructor <;> simp [Decoder.start, delivered, System.pending, Decoder.output, Status.verdict,
    Phase.joins, Phase.size, Phase.drained]

private theorem Sane.answer {d : Decoder} {s : System} (h : Sane d s) (size : Nat)
    (result : Except IoError (List UInt8)) (empty : result.toOption.getD [] = [])
    (free : s.phase.joins = none) : Sane d (s.answer size result) := by
  refine ⟨?_, h.offset, h.closed, h.reported, h.resultClosed, h.slot, fun hv _ => h.unread hv free,
    fun hv => ⟨(h.owned hv).1, fun _ => (h.owned hv).2 free⟩, nofun, nofun, nofun, h.concluded⟩
  rw [System.answer, delivered_append, empty, List.append_nil]
  exact h.conserve

private theorem Sane.copied {d : Decoder} {s : System} {p : PipeReader} {size : Nat}
    (h : Sane d { s with pipe := some p }) (loop : s.phase = .looping size)
    (left : p.offset < p.chunk.length) (reading : s.status = .reading) :
    Sane d (s.afterCopy size p) := by
  have hpos : 0 < size := h.sized size (by simp [loop, Phase.size])
  obtain ⟨happend, -, hle⟩ := PipeReader.copy_append size (h.offset p rfl)
  have hjoins : s.phase.joins = none := by rw [loop]; rfl
  rw [System.afterCopy_eq hpos left]
  refine ⟨?_, ?_, h.closed, h.reported, h.resultClosed, h.slot, fun hv _ => h.unread hv hjoins,
    fun hv => ⟨(h.owned hv).1, fun _ => rfl⟩, nofun, nofun, nofun, fun verdict hv => ?_⟩
  · rw [System.answer, delivered_append]
    have hcons := h.conserve
    simp only [System.pending, Option.elim_some, ← happend] at hcons ⊢
    rw [← hcons]
    simp [Except.toOption]
  · rintro q hq
    obtain rfl := Option.some.inj hq
    exact hle
  · simp [System.answer, reading, Status.verdict] at hv

private theorem Sane.concludes {d : Decoder} {s : System} {size : Nat}
    {result : Option (Result Unit)}
    {status : Status} (h : Sane d s) (here : s.phase = .joining size result)
    (outcome : status.verdict = some (conclude d s.worker result)) :
    Sane d { s with worker := false, status := status, phase := .looping size } := by
  obtain ⟨hclosed, hpending, hreading⟩ := h.drained (by rw [here]; rfl)
  obtain ⟨rfl, -⟩ := h.joins result (by rw [here]; rfl)
  refine ⟨h.conserve, h.offset, h.closed, h.reported, h.resultClosed, h.slot,
    fun hv => absurd (outcome.symm.trans hv) nofun, fun hv => absurd (outcome.symm.trans hv) nofun,
    fun size' hs => h.sized size' (by rw [here]; exact hs), nofun, nofun, fun v hv => ?_⟩
  refine ⟨?_, hpending, h.closed hclosed⟩
  rw [(h.owned hreading).1] at outcome
  exact Option.some.inj (hv.symm.trans outcome)

section Steps

variable {d : Decoder} {s t : System} {p : PipeReader} {w : Write} {rest : List Write} {size : Nat}

private theorem Sane.skip (h : Sane d s) (next : s.writes = w :: rest) (empty : w.run = .ok none) :
    Sane d { s with writes := rest } := by
  have hne : s.writes ≠ [] := by simp [next]
  refine ⟨?_, h.offset, fun hc => absurd (h.closed hc) hne, h.reported,
    fun hr => absurd (h.resultClosed hr).1 hne, h.slot, h.unread, h.owned, h.sized, h.drained,
    h.joins, fun v hv => absurd (h.concluded v hv).2.2 hne⟩
  have hcons := h.conserve
  rw [next, List.flatMap_cons, Write.run_eq_none empty, List.nil_append] at hcons
  exact hcons

private theorem Sane.receive {c : Chunk} (h : Sane d s) (loop : s.phase = .looping size)
    (status : s.status = .reading) (pipe : s.pipe = some p) (drained : p.offset = p.chunk.length)
    (next : s.writes = w :: rest) (sent : w.run = .ok (some c)) :
    Sane d ({ s with writes := rest }.afterCopy size ⟨c.bytes, c.offset⟩) := by
  have hne : s.writes ≠ [] := by simp [next]
  refine Sane.copied ⟨?_, ?_, fun hc => absurd (h.closed hc) hne, h.reported,
    fun hr => absurd (h.resultClosed hr).1 hne, h.slot, h.unread,
    fun hv => ⟨(h.owned hv).1, fun _ => rfl⟩, h.sized, ?_, h.joins,
    fun v hv => absurd (h.concluded v hv).2.2 hne⟩ loop c.rest status
  · have hcons := h.conserve
    rw [next, List.flatMap_cons, ← Write.run_eq_some sent, System.pending, pipe,
      Option.elim_some, drained, List.drop_length, List.append_nil] at hcons
    rw [← hcons]
    simp [System.pending]
  · rintro q hq
    obtain rfl := Option.some.inj hq
    exact Nat.le_of_lt c.rest
  · simp [loop, Phase.drained]

private theorem Sane.disconnected (h : Sane d s) (loop : s.phase = .looping size)
    (status : s.status = .reading) (pipe : s.pipe = some p) (drained : p.offset = p.chunk.length)
    (closed : s.outputOpen = false) : Sane d { s with phase := .awaiting size } := by
  have hjoins : s.phase.joins = none := by rw [loop]; rfl
  refine ⟨h.conserve, h.offset, h.closed, h.reported, h.resultClosed, h.slot,
    fun hv _ => h.unread hv hjoins, fun hv => ⟨(h.owned hv).1, fun _ => (h.owned hv).2 hjoins⟩,
    fun size' hs => h.sized size' (by rw [loop]; exact hs), fun _ => ⟨closed, ?_, ?_⟩, nofun,
    h.concluded⟩
  · simp [System.pending, pipe, drained]
  · simp [status, Status.verdict]

/-- The reader stops waiting with the decoder's result, or with none where there is none to come. -/
private theorem Sane.stopWaiting {slot result : Option (Result Unit)} (h : Sane d s)
    (here : s.phase = .awaiting size) (known : result = d.report)
    (reported : d.report.isSome → s.reported = true)
    (kept : ∀ r, slot = some r → d.report = some r ∧ s.reported = true) :
    Sane d { s with slot, pipe := none, phase := .joining size result } := by
  obtain ⟨hclosed, hpending, hreading⟩ := h.drained (by rw [here]; rfl)
  refine ⟨?_, nofun, h.closed, h.reported, h.resultClosed, kept, nofun,
    fun hv => ⟨(h.owned hv).1, nofun⟩, fun size' hs => h.sized size' (by rw [here]; exact hs),
    fun _ => ⟨hclosed, rfl, hreading⟩, ?_, fun v hv => ?_⟩
  · have hcons := h.conserve
    rw [hpending] at hcons
    exact hcons
  · rintro result' hj
    obtain rfl := Option.some.inj hj
    exact ⟨known, reported⟩
  · exact absurd (hreading.symm.trans hv) nofun

/-- The result channel closes without a result only where the decoder has reported none. -/
private theorem Sane.lost (h : Sane d s) (here : s.phase = .awaiting size) (empty : s.slot = none)
    (closed : s.resultOpen = false) : d.report = none := by
  obtain ⟨-, -, hreading⟩ := h.drained (by rw [here]; rfl)
  cases hreport : d.report with
  | none => rfl
  | some r =>
    have hslot := h.unread hreading (by rw [here]; rfl)
      ((h.resultClosed closed).2 (by simp [hreport]))
    rw [empty, hreport] at hslot
    cases hslot

private theorem Sane.step (h : Sane d s) (step : Step d s t) : Sane d t := by
  cases step
  case skip w rest next empty => exact h.skip next empty
  case dropOutput done here =>
    exact ⟨h.conserve, h.offset, fun _ => done, fun _ => rfl, h.resultClosed, h.slot, h.unread,
      h.owned, h.sized, fun hd => ⟨rfl, (h.drained hd).2⟩, h.joins, h.concluded⟩
  case report r outcome closed once =>
    exact ⟨h.conserve, h.offset, h.closed, fun _ => closed,
      fun hr => ⟨(h.resultClosed hr).1, fun _ => rfl⟩, fun r' hr => ⟨hr ▸ outcome, rfl⟩,
      fun _ _ _ => outcome.symm, h.owned, h.sized, h.drained,
      fun result hj => ⟨(h.joins result hj).1, fun _ => rfl⟩, h.concluded⟩
  case dropResult done complete here =>
    exact ⟨h.conserve, h.offset, h.closed, h.reported, fun _ => ⟨done, complete⟩, h.slot, h.unread,
      h.owned, h.sized, h.drained, h.joins, h.concluded⟩
  case exit =>
    exact ⟨h.conserve, h.offset, h.closed, h.reported, h.resultClosed, h.slot, h.unread, h.owned,
      h.sized, h.drained, h.joins, h.concluded⟩
  case callEmpty free => exact h.answer 0 _ rfl (by rw [free]; rfl)
  case call size free pos =>
    have hjoins : s.phase.joins = none := by rw [free]; rfl
    refine ⟨h.conserve, h.offset, h.closed, h.reported, h.resultClosed, h.slot,
      fun hv _ => h.unread hv hjoins, fun hv => ⟨(h.owned hv).1, fun _ => (h.owned hv).2 hjoins⟩,
      ?_, nofun, nofun, h.concluded⟩
    rintro size' hs
    obtain rfl := Option.some.inj hs
    exact pos
  case atEof size loop status => exact h.answer size _ rfl (by rw [loop]; rfl)
  case atFailure size error loop status => exact h.answer size _ rfl (by rw [loop]; rfl)
  case copy size p loop status pipe left =>
    have hsame : { s with pipe := some p } = s := by rw [← pipe]
    exact Sane.copied (hsame ▸ h) loop (by have := h.offset p pipe; omega) status
  case receive size p w rest c loop status pipe drained next sent =>
    exact h.receive loop status pipe drained next sent
  case disconnected size p loop status pipe drained closed =>
    exact h.disconnected loop status pipe drained closed
  case takeResult size r here there =>
    obtain ⟨hreport, hreported⟩ := h.slot r there
    exact h.stopWaiting here hreport.symm (fun _ => hreported) nofun
  case lostResult size here empty closed =>
    exact h.stopWaiting here (h.lost here empty closed).symm (h.resultClosed closed).2 h.slot
  case finish size result here joined outcome =>
    exact h.concludes here (by rw [outcome]; rfl)
  case fail size result error here joined outcome =>
    have hdone : Sane d { s with
        worker := false, status := .failed error, phase := .looping size } :=
      h.concludes here (by rw [outcome]; rfl)
    exact hdone.answer size _ rfl rfl

end Steps

/-- The read calls so far: some that deliver, then, once the stream has come to its end, some
that report it. -/
def Kept (d : Decoder) (s : System) : Prop :=
  ∃ before after, s.log = before ++ after ∧ (∀ e ∈ before, Delivers e) ∧
    (∀ e ∈ after, Ends d.verdict e) ∧ (s.status.verdict = none → after = [])

private theorem Kept.deliver {d : Decoder} {s t : System} {size : Nat}
    {result : Except IoError (List UInt8)} (h : Kept d s) (reading : s.status.verdict = none)
    (delivers : Delivers (size, result)) (log : t.log = s.log ++ [(size, result)]) :
    Kept d t := by
  obtain ⟨before, after, hlog, hbefore, -, hafter⟩ := h
  refine ⟨before ++ [(size, result)], [], ?_, ?_, nofun, fun _ => rfl⟩
  · rw [log, hlog, hafter reading, List.append_nil, List.append_nil]
  · rintro e he
    rcases List.mem_append.mp he with he | he
    · exact hbefore e he
    · exact List.mem_singleton.mp he ▸ delivers

private theorem Kept.report {d : Decoder} {s t : System} {size : Nat}
    {result : Except IoError (List UInt8)} (h : Kept d s) (known : t.status.verdict ≠ none)
    (ends : Ends d.verdict (size, result)) (log : t.log = s.log ++ [(size, result)]) :
    Kept d t := by
  obtain ⟨before, after, hlog, hbefore, hafter, -⟩ := h
  refine ⟨before, after ++ [(size, result)], ?_, hbefore, ?_, fun hv => absurd hv known⟩
  · rw [log, hlog, List.append_assoc]
  · rintro e he
    rcases List.mem_append.mp he with he | he
    · exact hafter e he
    · exact List.mem_singleton.mp he ▸ ends

private theorem Kept.copied {d : Decoder} {s : System} {p : PipeReader} {size : Nat} (h : Kept d s)
    (reading : s.status.verdict = none) (pos : 0 < size) (left : p.offset < p.chunk.length) :
    Kept d (s.afterCopy size p) := by
  obtain ⟨-, hlen, -⟩ := PipeReader.copy_append size (Nat.le_of_lt left)
  rw [System.afterCopy_eq pos left]
  exact h.deliver reading ⟨_, rfl, hlen, fun _ => PipeReader.copy_ne_nil pos left⟩ rfl

private theorem Kept.same {d : Decoder} {s t : System} (h : Kept d s) (log : t.log = s.log)
    (status : t.status.verdict = none → s.status.verdict = none) : Kept d t := by
  obtain ⟨before, after, hsplit, hbefore, hafter, hreading⟩ := h
  exact ⟨before, after, log.trans hsplit, hbefore, hafter, fun hv => hreading (status hv)⟩

private theorem Kept.step {d : Decoder} {s t : System} (h : Kept d s) (sane : Sane d s)
    (step : Step d s t) : Kept d t := by
  cases step
  case callEmpty free =>
    cases hv : s.status.verdict with
    | none => exact h.deliver hv ⟨[], rfl, Nat.le_refl _, nofun⟩ rfl
    | some v => exact h.report (by simp [System.answer, hv]) (by rw [Ends, if_pos rfl]) rfl
  case atEof size loop status =>
    have hpos : 0 < size := sane.sized size (by simp [loop, Phase.size])
    have hverdict := (sane.concluded (.ok ()) (by simp [status, Status.verdict])).1
    refine h.report (by simp [System.answer, status, Status.verdict]) ?_ rfl
    rw [Ends, if_neg (by simp; omega), ← hverdict]
    rfl
  case atFailure size error loop status =>
    have hpos : 0 < size := sane.sized size (by simp [loop, Phase.size])
    have hverdict := (sane.concluded (.error error) (by simp [status, Status.verdict])).1
    refine h.report (by simp [System.answer, status, Status.verdict]) ?_ rfl
    rw [Ends, if_neg (by simp; omega), ← hverdict]
    rfl
  case copy size p loop status pipe left =>
    exact h.copied (by simp [status, Status.verdict]) (sane.sized size (by simp [loop, Phase.size]))
      (by have := sane.offset p pipe; omega)
  case receive size p w rest c loop status pipe drained next sent =>
    have here : Kept d { s with writes := rest } := h.same rfl id
    exact here.copied (by simp [status, Status.verdict])
      (sane.sized size (by simp [loop, Phase.size])) c.rest
  case finish size result here joined outcome => exact h.same rfl nofun
  case fail size result error here joined outcome =>
    have hpos : 0 < size := sane.sized size (by simp [here, Phase.size])
    obtain ⟨-, -, hreading⟩ := sane.drained (by rw [here]; rfl)
    obtain ⟨rfl, -⟩ := sane.joins result (by rw [here]; rfl)
    rw [(sane.owned hreading).1] at outcome
    refine h.report (by simp [System.answer, Status.verdict]) ?_ rfl
    rw [Ends, if_neg (by simp; omega), Decoder.verdict, outcome]
    rfl
  all_goals exact h.same rfl id

private theorem delivered_ends {verdict : Except IoError Unit}
    {log : List (Nat × Except IoError (List UInt8))} (h : ∀ e ∈ log, Ends verdict e) :
    delivered log = [] := by
  refine List.flatMap_eq_nil_iff.mpr fun e he => ?_
  have := h e he
  rw [Ends] at this
  rw [this]
  split
  · rfl
  · cases verdict <;> rfl

/-- From the first call that delivers nothing on, everything is delivered and the end is
reported. -/
theorem Kept.split {d : Decoder} {s : System} (h : Kept d s) (sane : Sane d s)
    {before after : List (Nat × Except IoError (List UInt8))}
    {e : Nat × Except IoError (List UInt8)} (log : s.log = before ++ e :: after)
    (silent : ¬ Delivers e) :
    delivered before = d.output ∧ Ends d.verdict e ∧ ∀ x ∈ after, Ends d.verdict x := by
  obtain ⟨early, late, hlog, hearly, hlate, hreading⟩ := h
  obtain ⟨mid, hbefore, htail⟩ : ∃ mid, before = early ++ mid ∧ late = mid ++ e :: after := by
    rcases List.append_eq_append_iff.mp (log.symm.trans hlog) with ⟨mid, h1, h2⟩ | ⟨mid, h1, h2⟩
    · cases mid with
      | nil => exact ⟨[], by simpa using h1.symm, by simpa using h2.symm⟩
      | cons x mid =>
        obtain ⟨rfl, -⟩ := List.cons.inj h2
        exact absurd (hearly e (by simp [h1])) silent
    · exact ⟨mid, h1, h2⟩
  have hends : ∀ x ∈ e :: after, Ends d.verdict x := fun x hx =>
    hlate x (htail ▸ List.mem_append_right _ hx)
  refine ⟨?_, hends e List.mem_cons_self, fun x hx => hends x (List.mem_cons_of_mem _ hx)⟩
  cases hv : s.status.verdict with
  | none => simp [hreading hv] at htail
  | some v =>
    obtain ⟨-, hpending, hwrites⟩ := sane.concluded v hv
    have hcons := sane.conserve
    rw [hpending, hwrites, log, List.flatMap_nil, List.append_nil, List.append_nil, delivered,
      List.flatMap_append] at hcons
    have hrest := delivered_ends hends
    rw [delivered] at hrest
    rw [hrest, List.append_nil] at hcons
    exact hcons

/-- Steps a call may still take on the reading thread. -/
def System.distance (s : System) : Nat :=
  match s.phase, s.status with
  | .idle, _ => 0
  | .looping _, .reading => 4
  | .looping _, _ => 1
  | .awaiting _, _ => 3
  | .joining _ _, _ => 2

/-- Upper bound on the steps before the call returns. -/
def System.measure (s : System) : Nat :=
  s.writes.length + s.outputOpen.toNat + (!s.reported).toNat + s.resultOpen.toNat +
    (!s.ended).toNat + s.distance

private theorem measure_step {d : Decoder} {s t : System} (sane : Sane d s) (busy : s.phase ≠ .idle)
    (step : Step d s t) : t.measure < s.measure := by
  cases step
  case callEmpty free => exact absurd free busy
  case call free pos => exact absurd free busy
  case copy size p loop status pipe left =>
    rw [System.afterCopy_eq (sane.sized size (by simp [loop, Phase.size]))
      (by have := sane.offset p pipe; omega)]
    simp [System.measure, System.distance, System.answer, loop, status]
  case receive size p w rest c loop status pipe drained next sent =>
    rw [System.afterCopy_eq (sane.sized size (by simp [loop, Phase.size])) c.rest]
    simp only [System.measure, System.distance, System.answer, loop, status, next,
      List.length_cons]
    omega
  all_goals simp_all [System.measure, System.distance, System.answer]

/-- A call in progress is never stuck. -/
theorem call_step {d : Decoder} {s : System} (sane : Sane d s) (busy : s.phase ≠ .idle) :
    ∃ t, Step d s t := by
  -- the worker can always go on once its writes are done
  have winds_up : s.writes = [] → s.outputOpen = false → (d.report.isSome → s.reported = true) →
      s.ended = false → ∃ t, Step d s t := fun done closed complete alive => by
    cases hr : s.resultOpen with
    | true => exact ⟨_, .dropResult done complete hr⟩
    | false => exact ⟨_, .exit closed hr alive⟩
  cases hphase : s.phase with
  | idle => exact absurd hphase busy
  | looping size =>
    cases hstatus : s.status with
    | eof => exact ⟨_, .atEof hphase hstatus⟩
    | failed error => exact ⟨_, .atFailure hphase hstatus⟩
    | reading =>
      have howned := sane.owned (by simp [hstatus, Status.verdict])
      obtain ⟨p, hpipe⟩ := Option.isSome_iff_exists.mp (howned.2 (by simp [hphase, Phase.joins]))
      by_cases drained : p.offset = p.chunk.length
      · cases hwrites : s.writes with
        | nil =>
          cases hout : s.outputOpen with
          | true => exact ⟨_, .dropOutput hwrites hout⟩
          | false => exact ⟨_, .disconnected hphase hstatus hpipe drained hout⟩
        | cons w rest =>
          rcases w.run_cases with hnone | ⟨c, hsome⟩
          · exact ⟨_, .skip hwrites hnone⟩
          · exact ⟨_, .receive hphase hstatus hpipe drained hwrites hsome⟩
      · exact ⟨_, .copy hphase hstatus hpipe drained⟩
  | awaiting size =>
    obtain ⟨closed, -, hreading⟩ := sane.drained (by rw [hphase]; rfl)
    cases hslot : s.slot with
    | some r => exact ⟨_, .takeResult hphase hslot⟩
    | none =>
      have hunread := sane.unread hreading (by rw [hphase]; rfl)
      cases hreport : d.report with
      | some r =>
        cases hrep : s.reported with
        | false => exact ⟨_, .report hreport closed hrep⟩
        | true => simp [hunread hrep, hreport] at hslot
      | none =>
        cases hr : s.resultOpen with
        | true => exact ⟨_, .dropResult (sane.closed closed) (by simp [hreport]) hr⟩
        | false => exact ⟨_, .lostResult hphase hslot hr⟩
  | joining size result =>
    obtain ⟨closed, -, -⟩ := sane.drained (by rw [hphase]; rfl)
    obtain ⟨-, complete⟩ := sane.joins result (by rw [hphase]; rfl)
    cases hended : s.ended with
    | false => exact winds_up (sane.closed closed) closed complete hended
    | true =>
      cases houtcome : conclude d s.worker result with
      | ok u => exact ⟨_, .finish hphase (fun _ => hended) houtcome⟩
      | error error => exact ⟨_, .fail hphase (fun _ => hended) houtcome⟩

/-- Read calls with a nonempty buffer. -/
def asking (log : List (Nat × Except IoError (List UInt8))) :
    List (Nat × Except IoError (List UInt8)) := log.filter fun e => decide (0 < e.1)

private theorem asking_le_delivered {log : List (Nat × Except IoError (List UInt8))}
    (h : ∀ e ∈ log, Delivers e) : (asking log).length ≤ (delivered log).length := by
  induction log with
  | nil => simp [asking]
  | cons e log ih =>
    have ih := ih fun x hx => h x (List.mem_cons_of_mem _ hx)
    obtain ⟨bytes, hresult, -, hne⟩ := h e List.mem_cons_self
    have hhead : (delivered (e :: log)).length = bytes.length + (delivered log).length := by
      rw [delivered, List.flatMap_cons, List.length_append, hresult]
      rfl
    by_cases hpos : 0 < e.1
    · have := List.length_pos_iff.mpr (hne hpos)
      simp only [asking, List.filter_cons, hpos, decide_true, if_true, List.length_cons] at ih ⊢
      omega
    · simp only [asking, List.filter_cons, hpos, decide_false, Bool.false_eq_true, if_false] at ih ⊢
      omega

private theorem verdict_eq_ok {d : Decoder} :
    d.verdict = .ok () ↔ d.report = some (.ok ()) ∧ d.panics = false := by
  unfold Decoder.verdict conclude
  rcases d.report with _ | _ | _ <;> simp

/-- What the read calls of a run have come to. -/
structure Faithful (d : Decoder) (s : System) : Prop where
  /-- the bytes returned are those written, in order, up to some point -/
  delivered : delivered s.log <+: d.output
  bounded : ∀ size bytes, (size, .ok bytes) ∈ s.log → bytes.length ≤ size
  eof : ∀ before size after, s.log = before ++ (size, .ok []) :: after → 0 < size →
    d.report = some (.ok ()) ∧ d.panics = false ∧ Reader.delivered before = d.output ∧
      ∀ e ∈ after, e.2 = .ok []
  /-- any other end of the decoder, a death included, is an error -/
  verdict : d.verdict = .ok () ↔ d.report = some (.ok ()) ∧ d.panics = false
  failure : ∀ before size error after, s.log = before ++ (size, .error error) :: after →
    d.verdict = .error error ∧ Reader.delivered before = d.output ∧
      ∀ e ∈ after, 0 < e.1 → e.2 = .error error
  /-- the end, good or bad, is reported after at most one call for each byte -/
  reported : d.output.length < (asking s.log).length →
    ∃ e ∈ s.log, 0 < e.1 ∧ e.2 = d.verdict.map fun _ => []
  returns : Inevitable (Step d) (fun t => t.phase = .idle) s

private theorem faithful_of_sane {d : Decoder} {s : System} (sane : Sane d s) (kept : Kept d s) :
    Faithful d s where
  delivered := ⟨_, by rw [← List.append_assoc]; exact sane.conserve⟩
  bounded := by
    intro size bytes hmem
    obtain ⟨before, after, hlog, hbefore, hafter, -⟩ := kept
    rw [hlog, List.mem_append] at hmem
    rcases hmem with h | h
    · obtain ⟨bytes', heq, hle, -⟩ := hbefore _ h
      obtain rfl := Except.ok.inj heq
      exact hle
    · have heq := hafter _ h
      rw [Ends] at heq
      split at heq
      · obtain rfl := Except.ok.inj heq
        exact Nat.zero_le _
      · cases hv : d.verdict <;> rw [hv] at heq
        · cases heq
        · obtain rfl := Except.ok.inj heq
          exact Nat.zero_le _
  eof := by
    intro before size after hlog hpos
    obtain ⟨hall, hends, hafter⟩ := kept.split sane hlog fun ⟨bytes, heq, _, hne⟩ =>
      hne hpos (Except.ok.inj heq).symm
    rw [Ends, if_neg (Nat.ne_of_gt hpos)] at hends
    have hok : d.verdict = .ok () := by
      cases hv : d.verdict with
      | error error => rw [hv] at hends; cases hends
      | ok u => rfl
    obtain ⟨hreport, hcalm⟩ := verdict_eq_ok.mp hok
    refine ⟨hreport, hcalm, hall, fun e he => ?_⟩
    have := hafter e he
    rw [Ends, hok] at this
    rw [this]
    exact ite_self _
  verdict := verdict_eq_ok
  failure := by
    intro before size error after hlog
    obtain ⟨hall, hends, hafter⟩ := kept.split sane hlog fun ⟨bytes, heq, _⟩ => nomatch heq
    have herror : d.verdict = .error error := by
      rw [Ends] at hends
      split at hends
      · cases hends
      · cases hv : d.verdict <;> rw [hv] at hends
        · rw [Except.error.inj hends]
        · cases hends
    refine ⟨herror, hall, fun e he hpos => ?_⟩
    have := hafter e he
    rw [Ends, if_neg (Nat.ne_of_gt hpos), herror] at this
    exact this
  reported := by
    intro many
    obtain ⟨before, after, hlog, hbefore, hafter, -⟩ := kept
    have hle := asking_le_delivered hbefore
    have hout : (Reader.delivered before).length ≤ d.output.length := by
      have hcons := congrArg List.length sane.conserve
      rw [hlog, Reader.delivered, List.flatMap_append] at hcons
      simp only [List.length_append] at hcons
      rw [Reader.delivered]
      omega
    rw [hlog, asking, List.filter_append, List.length_append] at many
    rw [asking] at hle
    have hpos : 0 < (after.filter fun e => decide (0 < e.1)).length := by omega
    obtain ⟨e, he⟩ := List.exists_mem_of_length_pos hpos
    obtain ⟨hmem, hpos⟩ := List.mem_filter.mp he
    have hpos : 0 < e.1 := by simpa using hpos
    refine ⟨e, hlog ▸ List.mem_append_right _ hmem, hpos, ?_⟩
    have := hafter e hmem
    rwa [Ends, if_neg (Nat.ne_of_gt hpos)] at this
  returns :=
    Inevitable.of_measure_until System.measure (fun _ _ h step => Sane.step h step)
      (fun _ _ h busy step => measure_step h busy step) (fun _ h busy => call_step h busy) sane

/-- Whatever the decoder writes and however it ends, in every interleaving with any read calls. -/
theorem read_faithful {d : Decoder} {s : System} (run : Reaches (Step d) d.start s) :
    Faithful d s := by
  have both : Sane d s ∧ Kept d s :=
    run.invariant (I := fun s => Sane d s ∧ Kept d s)
      ⟨sane_start d, [], [], rfl, nofun, nofun, fun _ => rfl⟩ fun _ _ h step =>
      ⟨h.1.step step, h.2.step h.1 step⟩
  exact faithful_of_sane both.1 both.2

/-- Two bytes of an owned chunk that starts behind its first, an empty write and then a failure. -/
def failingDecoder : Decoder where
  writes := [.owned [1, 2, 3] 1 (by decide), .borrowed []]
  report := some (.error (.invalidGzip "CRC-32 mismatch"))
  panics := false

theorem read_faithful_failing :
    Faithful failingDecoder
      ({ failingDecoder.start with writes := [.borrowed []] }.afterCopy 1 ⟨[1, 2, 3], 1⟩) := by
  refine read_faithful (.tail (.single (.call rfl (Nat.zero_lt_one))) ?_)
  exact @Step.receive failingDecoder { failingDecoder.start with phase := .looping 1 } 1 {} _ _
    ⟨[1, 2, 3], 1, by decide⟩ rfl rfl rfl rfl rfl rfl

end Fbz.Reader
