import Fbz.Lib.Transition
import Fbz.Pipeline.Streaming

/-!
# Encoders at work

What the stream encoders have in common: an input side that cuts the bytes of the calls into jobs,
and an output side that commits results. Between them is the pool. A session is one encoder with
its pool, the workers finishing their jobs at any time; it always ends, never in an error, and what
it commits are the results of the jobs in their order.
-/

namespace Fbz.Pipeline

open Transition

variable {F B T : Type}

/-- Calls on an encoder before it is finished. -/
inductive Call
  | write (bytes : List UInt8)
  | flush

namespace Call

def bytes : Call → List UInt8
  | write bytes => bytes
  | flush => []

/-- A bound on the steps a call takes. -/
def weight : Call → Nat
  | write bytes => 2 * bytes.length + 1
  | flush => 1

end Call

/-- What the code does next, as far as its input side decides. Submitting first commits results
until there is room, draining commits all results that are pending. -/
inductive Request (F T : Type)
  | compute (next : F)
  | touch (next : F)
  | submit (job : T) (next : F)
  | drain (next : F)
  | finish

namespace Request

def next? : Request F T → Option F
  | compute next | touch next | submit _ next | drain next => some next
  | finish => none

def job? : Request F T → Option T
  | submit job _ => some job
  | compute _ | touch _ | drain _ | finish => none

/-- The same request, with states that are related. -/
inductive Related (R : F → F → Prop) : Request F T → Request F T → Prop
  | compute {f g} (h : R f g) : Related R (.compute f) (.compute g)
  | touch {f g} (h : R f g) : Related R (.touch f) (.touch g)
  | submit {f g} (job) (h : R f g) : Related R (.submit job f) (.submit job g)
  | drain {f g} (h : R f g) : Related R (.drain f) (.drain g)
  | finish : Related R .finish .finish

end Request

/-- An encoder: `front` states have everything up to the jobs, `back` states everything behind the
results. A `touch` is a call that only concerns the output and finds nothing to do there. -/
structure Client (F B T : Type) where
  request : F → Request F T
  commit : B → T → B
  touch : B → B
  remaining : F → Nat
  decreases : ∀ front next, (request front).next? = some next → remaining next < remaining front
  touch_commit : ∀ back result, touch (commit back result) = commit back result

inductive Status
  | running
  | finished
  | failed (error : Error)
  deriving DecidableEq

/-- An encoder with its pool, and what it has submitted and taken so far. Each job reserves the
same memory. -/
structure Session (F B T : Type) where
  reservation : Nat
  front : F
  back : B
  pool : StreamingOrdered T
  submitted : List T := []
  taken : List T := []
  status : Status := .running

/-- An encoder that has just been made. Which job finishes next is left to the steps. -/
def Session.new (reservation : Nat) (front : F) (back : B) (workers memoryLimit : Nat) :
    Session F B T where
  reservation
  front
  back
  pool := .new workers memoryLimit fun _ => 0

namespace Client

variable (c : Client F B T)

/-- The code is in `commit_next`: for room, or to drain. -/
def Takes (s : Session F B T) : Prop :=
  (∃ job next, c.request s.front = .submit job next ∧ s.pool.canSubmit s.reservation = false) ∨
    ((∃ next, c.request s.front = .drain next) ∨ c.request s.front = .finish) ∧
      s.pool.hasPending = true

/-- One step. The message received next is that of any job still out. -/
inductive Step : Session F B T → Session F B T → Prop
  | compute {s next} (running : s.status = .running) (line : c.request s.front = .compute next) :
      Step s { s with front := next }
  | touch {s next} (running : s.status = .running) (line : c.request s.front = .touch next) :
      Step s { s with front := next, back := c.touch s.back }
  | submit {s job next pool} (running : s.status = .running)
      (line : c.request s.front = .submit job next)
      (room : s.pool.canSubmit s.reservation = true)
      (sent : s.pool.submit s.reservation job = .ok pool) :
      Step s { s with front := next, pool, submitted := s.submitted ++ [job] }
  | refuse {s job next error} (running : s.status = .running)
      (line : c.request s.front = .submit job next)
      (room : s.pool.canSubmit s.reservation = true)
      (refused : s.pool.submit s.reservation job = .error (.failed error)) :
      Step s { s with status := .failed error }
  | starve {s} (running : s.status = .running) (takes : c.Takes s)
      (nothing : ¬ s.pool.nextTake < s.pool.nextSubmit) :
      Step s { s with
        status := .failed (.invalidConfiguration "streaming pipeline has no pending result") }
  | receive {s} (running : s.status = .running) (takes : c.Takes s)
      (pending : s.pool.nextTake < s.pool.nextSubmit)
      (missing : ∀ message ∈ s.pool.ready, message.key ≠ s.pool.nextTake)
      (index : Fin s.pool.inFlight.length) :
      Step s { s with pool := s.pool.deliver index }
  | take {s message} (running : s.status = .running) (takes : c.Takes s)
      (pending : s.pool.nextTake < s.pool.nextSubmit) (ready : message ∈ s.pool.ready)
      (key : message.key = s.pool.nextTake) :
      Step s { s with
        back := c.commit s.back message.result
        pool := s.pool.release message
        taken := s.taken ++ [message.result] }
  | drained {s next} (running : s.status = .running) (line : c.request s.front = .drain next)
      (idle : s.pool.hasPending = false) : Step s { s with front := next }
  | finish {s} (running : s.status = .running) (line : c.request s.front = .finish)
      (idle : s.pool.hasPending = false) : Step s { s with status := .finished }

/-- The jobs that are cut from here on. -/
def jobs (front : F) : List T :=
  match _h : (c.request front).next? with
  | none => []
  | some next => (c.request front).job?.toList ++ jobs next
termination_by c.remaining front
decreasing_by exact c.decreases front next _h

/-- The input side at the end. -/
def last (front : F) : F :=
  match _h : (c.request front).next? with
  | none => front
  | some next => last next
termination_by c.remaining front
decreasing_by exact c.decreases front next _h

variable {c} {f next : F}

theorem jobs_next (h : (c.request f).next? = some next) :
    c.jobs f = (c.request f).job?.toList ++ c.jobs next := by
  rw [jobs]
  split
  · simp_all
  · next found => rw [Option.some.inj (found.symm.trans h)]

theorem jobs_finish (h : (c.request f).next? = none) : c.jobs f = [] := by
  rw [jobs]
  split
  · rfl
  · next found => rw [h] at found; cases found

theorem jobs_congr {g : F} (h : c.request f = c.request g) : c.jobs f = c.jobs g := by
  cases hnext : (c.request f).next? with
  | none => rw [jobs_finish hnext, jobs_finish (by rw [← h, hnext])]
  | some next => rw [jobs_next hnext, @jobs_next _ _ _ c g next (by rw [← h, hnext]), h]

private theorem last_next (h : (c.request f).next? = some next) : c.last f = c.last next := by
  rw [last]
  split
  · simp_all
  · next found => rw [Option.some.inj (found.symm.trans h)]

private theorem last_finish (h : (c.request f).next? = none) : c.last f = f := by
  rw [last]
  split
  · rfl
  · next found => rw [h] at found; cases found

theorem last_request (f : F) : (c.request (c.last f)).next? = none := by
  induction hn : c.remaining f using Nat.strongRecOn generalizing f with
  | ind n ih =>
    cases hnext : (c.request f).next? with
    | none => rw [last_finish hnext, hnext]
    | some next =>
      rw [last_next hnext]
      exact ih _ (hn ▸ c.decreases f next hnext) next rfl

theorem last_invariant {α : Type} (quantity : F → α)
    (keep : ∀ f next, (c.request f).next? = some next → quantity next = quantity f) (f : F) :
    quantity (c.last f) = quantity f := by
  induction hn : c.remaining f using Nat.strongRecOn generalizing f with
  | ind n ih =>
    cases hnext : (c.request f).next? with
    | none => rw [last_finish hnext]
    | some next =>
      rw [last_next hnext, ih _ (hn ▸ c.decreases f next hnext) next rfl, keep f next hnext]

/-- States that make the same requests cut the same jobs. -/
theorem jobs_related {R : F → F → Prop}
    (same : ∀ f g, R f g → Request.Related R (c.request f) (c.request g)) {g : F} (h : R f g) :
    c.jobs f = c.jobs g := by
  induction hn : c.remaining f using Nat.strongRecOn generalizing f g with
  | ind n ih =>
    have hsame := same f g h
    revert hsame
    cases hf : c.request f <;> cases hg : c.request g <;> intro hsame <;> cases hsame
    case finish => rw [jobs_finish (by rw [hf]; rfl), jobs_finish (by rw [hg]; rfl)]
    all_goals
      next next next' hnext =>
      have hfirst : (c.request f).next? = some next := by rw [hf]; rfl
      have hsecond : (c.request g).next? = some next' := by rw [hg]; rfl
      rw [jobs_next hfirst, jobs_next hsecond, hf, hg,
        ih _ (hn ▸ c.decreases f next hfirst) hnext rfl]
      rfl

variable (c) in
/-- A session that begins: an empty pool with room for one job at least. -/
structure Begins (s : Session F B T) : Prop where
  status : s.status = .running
  submitted : s.submitted = []
  taken : s.taken = []
  pool : s.pool.Holds []
  nextTake : s.pool.nextTake = 0
  workers : 0 < s.pool.maxActive
  fits : s.reservation ≤ s.pool.memoryLimit
  settled : c.touch s.back = s.back

variable (c) in
/-- A state of a session that began with `start`: what is with the pool, in order, is what has been
submitted and not taken. -/
structure Runs (start s : Session F B T) (queue : List T) : Prop where
  alive : s.status = .running ∨ s.status = .finished ∧ queue = [] ∧ c.request s.front = .finish
  limits : s.pool.SameLimits start.pool
  workers : 0 < s.pool.maxActive
  fits : s.reservation ≤ s.pool.memoryLimit
  holds : s.pool.Holds (queue.map fun job => (s.reservation, job))
  active_le : s.pool.active ≤ s.pool.maxActive
  reserved_le : s.pool.reserved ≤ s.pool.memoryLimit
  queue : s.submitted = s.taken ++ queue
  nextTake : s.pool.nextTake = s.taken.length
  jobs : s.submitted ++ c.jobs s.front = c.jobs start.front
  last : c.last s.front = c.last start.front
  back : s.back = s.taken.foldl c.commit start.back

variable {start s t : Session F B T} {queue : List T}

theorem begins_new {reservation workers memoryLimit : Nat} {f : F} {b : B}
    (fits : reservation ≤ memoryLimit) (settled : c.touch b = b) :
    c.Begins (.new reservation f b workers memoryLimit) where
  status := rfl
  submitted := rfl
  taken := rfl
  pool := StreamingOrdered.holds_new _ _ _
  nextTake := rfl
  workers := by
    simp only [Session.new, StreamingOrdered.new]
    omega
  fits := fits
  settled := settled

private theorem Begins.runs (h : c.Begins start) : c.Runs start start [] where
  alive := .inl h.status
  limits := ⟨rfl, rfl⟩
  workers := h.workers
  fits := h.fits
  holds := h.pool
  active_le := by
    rw [h.pool.active]
    exact Nat.zero_le _
  reserved_le := by
    rw [h.pool.reserved]
    exact Nat.zero_le _
  queue := by rw [h.submitted, h.taken]; rfl
  nextTake := by rw [h.nextTake, h.taken]; rfl
  jobs := by rw [h.submitted]; rfl
  last := rfl
  back := by rw [h.taken]; rfl

private theorem touch_foldl {back : B} (settled : c.touch back = back) (results : List T) :
    c.touch (results.foldl c.commit back) = results.foldl c.commit back := by
  rcases List.eq_nil_or_concat results with rfl | ⟨results, result, rfl⟩
  · exact settled
  · rw [List.concat_eq_append, List.foldl_append, List.foldl_cons, List.foldl_nil, c.touch_commit]

private theorem Runs.takes_pending (h : c.Runs start s queue) (takes : c.Takes s) : queue ≠ [] := by
  rintro rfl
  rcases takes with ⟨job, next, -, hfull⟩ | ⟨-, hpending⟩
  · rw [StreamingOrdered.Holds.canSubmit_nil h.holds h.workers h.fits] at hfull
    cases hfull
  · exact h.holds.hasPending.mp hpending rfl

private theorem Runs.pending (h : c.Runs start s queue) (ne : queue ≠ []) :
    s.pool.nextTake < s.pool.nextSubmit := by
  rw [h.holds.submitted, List.length_map]
  have := List.length_pos_iff.mpr ne
  omega

private theorem Runs.front {message : StreamingMessage T} (h : c.Runs start s queue)
    (ne : queue ≠ [])
    (mem : message ∈ s.pool.inFlight ++ s.pool.ready) (key : message.key = s.pool.nextTake) :
    ∃ job rest, queue = job :: rest ∧ message = ⟨s.pool.nextTake, s.reservation, job⟩ := by
  obtain ⟨job, rest, rfl⟩ := List.exists_cons_of_ne_nil ne
  exact ⟨job, rest, rfl, h.holds.front mem key⟩

private theorem Runs.advance (h : c.Runs start s queue) (running : s.status = .running)
    (line : (c.request s.front).next? = some next) (nojob : (c.request s.front).job? = none) :
    c.Runs start { s with front := next } queue :=
  { h with
    alive := .inl running
    jobs := by rw [← h.jobs, jobs_next line, nojob]; rfl
    last := by rw [← h.last, last_next line] }

private theorem Runs.step (begins : c.Begins start) (h : c.Runs start s queue) (step : c.Step s t) :
    ∃ queue', c.Runs start t queue' := by
  cases step with
  | compute running line => exact ⟨queue, h.advance running (by rw [line]; rfl) (by rw [line]; rfl)⟩
  | drained running line idle =>
    exact ⟨queue, h.advance running (by rw [line]; rfl) (by rw [line]; rfl)⟩
  | touch running line =>
    refine ⟨queue, { h.advance running (by rw [line]; rfl) (by rw [line]; rfl) with back := ?_ }⟩
    dsimp only
    rw [h.back, touch_foldl begins.settled]
  | @submit job next pool running line room sent =>
    rw [StreamingOrdered.submit_eq job room] at sent
    obtain rfl := Except.ok.inj sent
    have henqueue := h.holds.enqueue s.reservation job
    simp only [StreamingOrdered.canSubmit, Bool.and_eq_true, decide_eq_true_eq] at room
    have hreserved := h.reserved_le
    exact ⟨queue ++ [job],
      { alive := .inl running
        limits := h.limits
        workers := h.workers
        fits := h.fits
        holds := by simpa using henqueue
        active_le := room.1
        reserved_le := by
          simp only [StreamingOrdered.enqueue]
          omega
        queue := by simp [h.queue]
        nextTake := h.nextTake
        jobs := by
          rw [← h.jobs, @jobs_next _ _ _ c s.front next (by rw [line]; rfl), line]
          simp [Request.job?]
        last := by rw [← h.last, @last_next _ _ _ c s.front next (by rw [line]; rfl)]
        back := h.back }⟩
  | refuse running line room refused =>
    rw [StreamingOrdered.submit_eq _ room] at refused
    cases refused
  | starve running takes nothing => exact absurd (h.pending (h.takes_pending takes)) nothing
  | receive running takes pending missing index =>
    exact ⟨queue, { h with
      alive := .inl running, holds := h.holds.deliver index }⟩
  | @take message running takes pending ready key =>
    obtain ⟨job, rest, rfl, rfl⟩ :=
      h.front (h.takes_pending takes) (List.mem_append_right _ ready) key
    have hrelease := h.holds.release ready
    exact ⟨rest,
      { alive := .inl running
        limits := h.limits
        workers := h.workers
        fits := h.fits
        holds := hrelease
        active_le := Nat.le_trans (Nat.sub_le _ _) h.active_le
        reserved_le := Nat.le_trans (Nat.sub_le _ _) h.reserved_le
        queue := by simp [h.queue]
        nextTake := by simp [StreamingOrdered.release, h.nextTake]
        jobs := h.jobs
        last := h.last
        back := by simp [h.back] }⟩
  | finish running line idle =>
    refine ⟨queue, { h with alive := .inr ⟨rfl, ?_, line⟩ }⟩
    by_contra hne
    rw [h.holds.hasPending.mpr (by simpa using hne)] at idle
    cases idle

private theorem Begins.run (h : c.Begins start) (run : Reaches c.Step start s) :
    ∃ queue, c.Runs start s queue :=
  Reaches.invariant (I := fun s => ∃ queue, c.Runs start s queue) run ⟨[], h.runs⟩
    fun _ _ ⟨_, hu⟩ step => hu.step h step

/-- What holds of a session whatever the order in which the workers finish. -/
structure Orderly (s : Session F B T) : Prop where
  /-- Results are taken in the order of submission, each once. -/
  inOrder : ∃ queue, s.submitted = s.taken ++ queue
  submitted : s.pool.nextSubmit = s.submitted.length
  taken : s.pool.nextTake = s.taken.length
  active : s.pool.active = s.pool.nextSubmit - s.pool.nextTake
  active_le : s.pool.active ≤ s.pool.maxActive
  /-- The messages are those of the jobs submitted and not taken. -/
  messages : ((s.pool.inFlight ++ s.pool.ready).map fun message => (message.key, message.result)).Perm
    ((s.submitted.drop s.taken.length).zipIdx s.taken.length |>.map fun entry => (entry.2, entry.1))
  reserved : s.pool.reserved =
    ((s.pool.inFlight ++ s.pool.ready).map StreamingMessage.reservation).sum
  reserved_le : s.pool.reserved ≤ s.pool.memoryLimit
  /-- What `take_next` subtracts is there. -/
  subtracts : ∀ message ∈ s.pool.ready, message.key = s.pool.nextTake →
    0 < s.pool.active ∧ message.reservation ≤ s.pool.reserved
  /-- No call on the pool has returned an error. -/
  healthy : ∀ error, s.status ≠ .failed error

private theorem numbered_zipIdx (key reservation : Nat) (queue : List T) :
    (StreamingOrdered.numbered key (queue.map fun job => (reservation, job))).map
        (fun message => (message.key, message.result)) =
      (queue.zipIdx key).map fun entry => (entry.2, entry.1) := by
  induction queue generalizing key with
  | nil => rfl
  | cons job queue ih =>
    simp only [List.map_cons, StreamingOrdered.numbered, List.zipIdx_cons, ih]

private theorem numbered_reservation (key : Nat) (queue : List (Nat × T)) :
    (StreamingOrdered.numbered key queue).map StreamingMessage.reservation =
      queue.map Prod.fst := by
  induction queue generalizing key with
  | nil => rfl
  | cons entry queue ih => simp only [List.map_cons, StreamingOrdered.numbered, ih]

private theorem Runs.orderly (h : c.Runs start s queue) : Orderly s where
  inOrder := ⟨queue, h.queue⟩
  submitted := by
    rw [h.holds.submitted, h.nextTake, h.queue, List.length_append, List.length_map]
  taken := h.nextTake
  active := by
    rw [h.holds.active, h.holds.submitted]
    omega
  active_le := h.active_le
  messages := by
    rw [h.queue, List.drop_left, ← h.nextTake]
    rw [← numbered_zipIdx s.pool.nextTake s.reservation]
    exact h.holds.messages.map _
  reserved := by
    rw [h.holds.reserved, ← numbered_reservation s.pool.nextTake]
    exact (h.holds.messages.map _).sum_nat.symm
  reserved_le := h.reserved_le
  subtracts := by
    intro message ready key
    have hqueue : queue ≠ [] := by
      rintro rfl
      have := h.holds.messages.subset (List.mem_append_right _ ready)
      cases this
    obtain ⟨job, rest, rfl, rfl⟩ := h.front hqueue (List.mem_append_right _ ready) key
    rw [h.holds.active, h.holds.reserved]
    simp
  healthy := by
    intro error heq
    rcases h.alive with hrunning | ⟨hfinished, -⟩
    · rw [hrunning] at heq
      cases heq
    · rw [hfinished] at heq
      cases heq

theorem Begins.orderly (h : c.Begins start) (run : Reaches c.Step start s) : Orderly s := by
  obtain ⟨queue, hruns⟩ := h.run run
  exact hruns.orderly

variable (c) in
/-- Steps of the input side, and of each message still out. -/
def work (s : Session F B T) : Nat :=
  3 * c.remaining s.front + (2 * s.pool.inFlight.length + s.pool.ready.length) +
    if s.status = .running then 1 else 0

private theorem Step.work_lt (h : c.Step s t) : c.work t < c.work s := by
  unfold work
  cases h with
  | compute running line | touch running line | drained running line idle =>
    have := c.decreases s.front _ (by rw [line]; rfl)
    dsimp only
    omega
  | @submit job next pool running line room sent =>
    rw [StreamingOrdered.submit_eq job room] at sent
    obtain rfl := Except.ok.inj sent
    have := c.decreases s.front next (by rw [line]; rfl)
    simp only [StreamingOrdered.enqueue, List.length_append, List.length_singleton]
    omega
  | refuse running _ _ _ | starve running _ _ | finish running _ _ => simp [running]
  | receive running takes pending missing index =>
    have hlt := index.2
    have hfilter := List.length_filter_le
      (fun message => decide (message.key ≠ (s.pool.inFlight.get index).key)) s.pool.ready
    simp only [StreamingOrdered.deliver, List.length_eraseIdx, hlt, if_true, List.length_cons]
    omega
  | @take message running takes pending ready key =>
    have hfilter : (s.pool.ready.filter fun other => decide (other.key ≠ message.key)).length <
        s.pool.ready.length :=
      List.length_filter_lt_length_iff_exists.mpr ⟨message, ready, by simp⟩
    simp only [StreamingOrdered.release]
    omega

private theorem Runs.takes_step (h : c.Runs start s queue) (running : s.status = .running)
    (takes : c.Takes s) : ∃ t, c.Step s t := by
  have hqueue := h.takes_pending takes
  have hpending := h.pending hqueue
  by_cases hready : ∃ message ∈ s.pool.ready, message.key = s.pool.nextTake
  · obtain ⟨message, hmem, hkey⟩ := hready
    exact ⟨_, .take running takes hpending hmem hkey⟩
  · obtain ⟨job, rest, rfl⟩ := List.exists_cons_of_ne_nil hqueue
    have hmissing : ∀ message ∈ s.pool.ready, message.key ≠ s.pool.nextTake :=
      fun message hmem hkey => hready ⟨message, hmem, hkey⟩
    have hout : (⟨s.pool.nextTake, s.reservation, job⟩ : StreamingMessage T) ∈ s.pool.inFlight := by
      have := h.holds.messages.symm.subset (List.mem_cons_self ..)
      rcases List.mem_append.mp this with hmem | hmem
      · exact hmem
      · exact absurd rfl (hmissing _ hmem)
    exact ⟨_, .receive running takes hpending hmissing ⟨0, List.length_pos_of_mem hout⟩⟩

private theorem Runs.progress (h : c.Runs start s queue) (running : s.status = .running) :
    ∃ t, c.Step s t := by
  cases line : c.request s.front with
  | compute next => exact ⟨_, .compute running line⟩
  | touch next => exact ⟨_, .touch running line⟩
  | submit job next =>
    cases hroom : s.pool.canSubmit s.reservation with
    | true => exact ⟨_, .submit running line hroom (StreamingOrdered.submit_eq job hroom)⟩
    | false => exact h.takes_step running (.inl ⟨job, next, line, hroom⟩)
  | drain next =>
    cases hpending : s.pool.hasPending with
    | true => exact h.takes_step running (.inr ⟨.inl ⟨next, line⟩, hpending⟩)
    | false => exact ⟨_, .drained running line hpending⟩
  | finish =>
    cases hpending : s.pool.hasPending with
    | true => exact h.takes_step running (.inr ⟨.inr line, hpending⟩)
    | false => exact ⟨_, .finish running line hpending⟩

variable (c) in
/-- The session is over, and all results have been committed in the order of the jobs. -/
structure Complete (start s : Session F B T) : Prop where
  status : s.status = .finished
  submitted : s.submitted = c.jobs start.front
  taken : s.taken = c.jobs start.front
  back : s.back = (c.jobs start.front).foldl c.commit start.back
  front : s.front = c.last start.front

private theorem Runs.complete (h : c.Runs start s queue) (finished : s.status = .finished) :
    c.Complete start s := by
  rcases h.alive with hrunning | ⟨-, rfl, line⟩
  · rw [finished] at hrunning
    cases hrunning
  · have hjobs := h.jobs
    have hqueue := h.queue
    rw [jobs_finish (by rw [line]; rfl), List.append_nil] at hjobs
    rw [List.append_nil] at hqueue
    have hback := h.back
    rw [← hqueue, hjobs] at hback
    exact ⟨finished, hjobs, hqueue.symm.trans hjobs, hback, (last_finish (by rw [line]; rfl)).symm.trans h.last⟩

theorem Begins.inevitable (h : c.Begins start) :
    Inevitable c.Step (c.Complete start) start := by
  refine Inevitable.of_measure_until (I := fun s => ∃ queue, c.Runs start s queue) c.work
    (fun _ _ ⟨_, hu⟩ step => hu.step h step) (fun _ _ _ _ step => step.work_lt)
    (fun s ⟨queue, hs⟩ hopen => ?_) ⟨[], h.runs⟩
  rcases hs.alive with hrunning | ⟨hfinished, -⟩
  · exact hs.progress hrunning
  · exact absurd (hs.complete hfinished) hopen

/-- What an encoder has written when it is done, as a function of its output and input side. -/
def Writes (c : Client F B T) (start : Session F B T) (written : B → F → List UInt8)
    (bytes : List UInt8) : Prop :=
  Inevitable c.Step (fun s => s.status = .finished ∧ written s.back s.front = bytes) start

theorem Begins.writes (h : c.Begins start) (written : B → F → List UInt8) :
    c.Writes start written
      (written ((c.jobs start.front).foldl c.commit start.back) (c.last start.front)) :=
  h.inevitable.mono fun s complete =>
    ⟨complete.status, by rw [complete.back, complete.front]⟩

end Client

end Fbz.Pipeline
