import Mathlib.Data.List.Count
import Mathlib.Data.List.Perm.Subperm
import Fbz.Pipeline.Panics

/-!
# Coordinators that sweep over the jobs

A coordinator of `run_ordered` asks for jobs in ascending order and discards what it passes over.
Results that arrive behind it stay charged, but only those of workers that were still at them when
a later result was sent, so fewer of them than there are workers.
-/

namespace Fbz.Pipeline

open Transition
set_option linter.unusedSimpArgs false

variable {T O S Q R σ : Type}

/-- A coordinator alone, the keys it has taken, and the one below which it has discarded. -/
structure Sweep (σ : Type) where
  consumer : σ
  taken : List Nat := []
  passed : Nat := 0

/-- The job lies behind everything taken. -/
def Sweep.ahead (w : Sweep σ) (job : Job T) : Bool := w.taken.all fun key => decide (key < job.key)

/-- A later job has been taken and this one has not. -/
def Sweep.skipped (w : Sweep σ) (job : Job T) : Bool :=
  decide (job.key ∉ w.taken) && !w.ahead job

namespace Program

variable (P : Program T O S Q R σ)

/-- One operation of a coordinator that takes and discards, answered from the job list. -/
inductive Sweeping : Sweep σ → Sweep σ → Prop
  | compute {w} (waiting : P.consumer.op w.consumer = .compute) :
      Sweeping w { w with consumer := P.consumer.after w.consumer }
  | discardBefore {w key} (waiting : P.consumer.op w.consumer = .discardBefore key) :
      Sweeping w { w with
        consumer := P.consumer.after w.consumer, passed := max w.passed key }
  | take {w job value} (waiting : P.consumer.op w.consumer = .take job.key) (mem : job ∈ P.jobs)
      (result : P.execute job.payload = some value) :
      Sweeping w { w with
        consumer := P.consumer.afterTake w.consumer value, taken := job.key :: w.taken }

/-- The question is for a job behind all that was taken and discarded, and what lies before a
taken job has been taken or passed over by a discard. -/
structure InOrder (w : Sweep σ) (key : Nat) : Prop where
  mem : key ∈ P.jobs.map Job.key
  behind : ∀ k ∈ w.taken, k < key
  passed : w.passed ≤ key
  cleared : ∀ k ∈ w.taken, k < w.passed ∨ ∀ job ∈ P.jobs, job.key < k → job.key ∈ w.taken

/-- A pipeline of `run_ordered` whose coordinator asks in order, and ends if it is answered. -/
structure Sweeps (start : σ) (rank : σ → Nat) : Prop where
  unstaged : P.staged = false
  keys_sorted : (P.jobs.map Job.key).Pairwise (· < ·)
  op : ∀ c, match P.consumer.op c with
    | .compute | .take _ | .discardBefore _ | .done _ => True
    | _ => False
  asks : ∀ w key, Reaches P.Sweeping ⟨start, [], 0⟩ w → P.consumer.op w.consumer = .take key →
    P.InOrder w key
  descends : ∀ w w', Reaches P.Sweeping ⟨start, [], 0⟩ w → P.Sweeping w w' →
    rank w'.consumer < rank w.consumer

def panics (job : Job T) : Bool := (P.execute job.payload).isNone

/-- Bytes that stay charged for a job once its worker is through with it. A panic gives nothing
back. -/
def charge (job : Job T) : Nat :=
  match P.execute job.payload with
  | some value => min (P.retainedSize value) job.reservation
  | none => job.reservation

/-- A skipped job whose result has not come, because it is late or because it panicked. -/
def lagging (w : Sweep σ) (late : Nat → Bool) (job : Job T) : Bool :=
  w.skipped job && (late job.key || P.panics job)

/-- The jobs among these that can be charged while the coordinator stands at `w`: those it has
not come to yet, and the skipped ones that lag behind. -/
def outstanding (w : Sweep σ) (late : Nat → Bool) (jobs : List (Job T)) : List (Job T) :=
  jobs.filter fun job => w.ahead job || P.lagging w late job

/-- With `n` workers the job that is asked for will come: neither it nor `n` jobs before it panic,
and whichever skipped jobs lag behind, fewer than `n` of them, each job up to it fits beside what
can be charged then. -/
structure Served (n : Nat) (w : Sweep σ) (key : Nat) : Prop where
  executes : ∀ job ∈ P.jobs, job.key = key → P.panics job = false
  staffed : (P.jobs.filter fun job => decide (job.key < key) && P.panics job).length < n
  room : ∀ late : Nat → Bool, (P.jobs.filter (P.lagging w late)).length < n →
    ∀ pre job post, P.jobs = pre ++ job :: post → job.key ≤ key → w.ahead job = true →
      (P.outstanding w late pre).length < P.limits.active ∧
        ((P.outstanding w late pre).map P.charge).sum + job.reservation ≤ P.limits.memory

/-- Keys the workers hold. -/
def held (s : State O S Q R σ) : List Nat := s.workers.flatMap P.workerKeys

/-- Keys on their way to the ready map. -/
def moving (s : State O S Q R σ) : List Nat := P.held s ++ s.channel.map Message.key

/-- Keys of admitted jobs that are not consumed. -/
def pending (s : State O S Q R σ) : List Nat := P.moving s ++ s.ready.map Message.key

end Program

/-- How many of the keys are smaller than this one. -/
def below (key : Nat) (keys : List Nat) : Nat := keys.countP fun k => decide (k < key)

@[simp] theorem below_nil (key : Nat) : below key [] = 0 := rfl

@[simp] theorem below_append (key : Nat) (ks ls : List Nat) :
    below key (ks ++ ls) = below key ks + below key ls := List.countP_append

@[simp] theorem below_cons (key k : Nat) (ks : List Nat) :
    below key (k :: ks) = below key ks + if k < key then 1 else 0 := by
  simp [below, List.countP_cons]

private theorem below_le_length (key : Nat) (ks : List Nat) : below key ks ≤ ks.length :=
  List.countP_le_length

/-- Each message in the channel has fewer than `n` smaller keys behind it. -/
def Trailed (n : Nat) (held : List Nat) : List (Message O) → Prop
  | [] => True
  | m :: rest => below m.key (held ++ rest.map Message.key) < n ∧ Trailed n held rest

private theorem Trailed.mono {n : Nat} {held held' : List Nat} {channel : List (Message O)}
    (h : Trailed n held channel) (le : ∀ m ∈ channel, below m.key held' ≤ below m.key held) :
    Trailed n held' channel := by
  induction channel with
  | nil => trivial
  | cons m rest ih =>
    refine ⟨?_, ih h.2 fun m' hm => le m' (List.mem_cons_of_mem _ hm)⟩
    have hfirst := h.1
    have := le m List.mem_cons_self
    rw [below_append] at hfirst ⊢
    omega

private theorem Trailed.send {n : Nat} {held held' : List Nat} {channel : List (Message O)}
    {message : Message O} (h : Trailed n held channel)
    (moves : ∀ k, below k held = below k held' + if message.key < k then 1 else 0)
    (few : held'.length < n) : Trailed n held' (channel ++ [message]) := by
  induction channel with
  | nil =>
    refine ⟨?_, trivial⟩
    have := below_le_length message.key held'
    rw [List.map_nil, List.append_nil]
    omega
  | cons m rest ih =>
    refine ⟨?_, ih h.2⟩
    have hfirst := h.1
    have := moves m.key
    show below m.key (held' ++ (rest ++ [message]).map Message.key) < n
    simp only [List.map_append, List.map_cons, List.map_nil, below_append, below_cons,
      below_nil] at hfirst ⊢
    omega

namespace Program

variable {P : Program T O S Q R σ} {start : σ} {rank : σ → Nat} {n : Nat} {s t : State O S Q R σ}

private theorem workerKeys_length_le (w : Worker O S Q) : (P.workerKeys w).length ≤ 1 := by
  cases w with
  | executing index | panicked index =>
    simp only [workerKeys, keyAt]
    cases P.jobs[index]? <;> simp
  | idle | polled | sending | staging | stageSending | stopped | stagePanicked => simp [workerKeys]

theorem held_length_le (workers : List (Worker O S Q)) :
    (workers.flatMap P.workerKeys).length ≤ workers.length := by
  induction workers with
  | nil => simp
  | cons w workers ih =>
    have := workerKeys_length_le (P := P) w
    simp only [List.flatMap_cons, List.length_append, List.length_cons]
    omega

/-- Of the keys smaller than that of a delivered result, fewer than `n` are still on their way. -/
structure Late (P : Program T O S Q R σ) (n : Nat) (s : State O S Q R σ) : Prop where
  ready : ∀ m ∈ s.ready, below m.key (P.moving s) < n
  channel : Trailed n (P.held s) s.channel

private theorem late_init : P.Late n (P.init n start) := by
  constructor <;> simp [init, Trailed]

private theorem pending_lt_next (counted : P.Counted s)
    (sorted : (P.jobs.map Job.key).Pairwise (· < ·))
    {job : Job T} (next : P.jobs[s.budget.next]? = some job) {key : Nat} (mem : key ∈ P.keys s) :
    key < job.key := by
  rw [← List.count_pos_iff, counted.keys, List.count_pos_iff, List.mem_map] at mem
  obtain ⟨earlier, hmem, rfl⟩ := mem
  obtain ⟨hlt, heq⟩ := List.getElem?_eq_some_iff.mp next
  have split : P.jobs = P.jobs.take s.budget.next ++ job :: P.jobs.drop (s.budget.next + 1) := by
    rw [← heq, ← List.drop_eq_getElem_cons, List.take_append_drop]
  exact key_lt_of_sorted sorted split hmem

private theorem Late.step (h : P.Late n s) (inv : P.Invariant start s) (phased : P.Phased n s)
    (sorted : (P.jobs.map Job.key).Pairwise (· < ·)) (step : P.Step s t)
    (running : t.finished = none) : P.Late n t := by
  obtain ⟨hready, hchannel⟩ := h
  cases step
  case grant pre post index budget here room =>
    obtain ⟨-, rfl, job, hjob, -, rfl⟩ := P.request_eq_ready.mp room
    have later : ∀ m ∈ s.channel ++ s.ready, m.key < job.key := fun m hm =>
      pending_lt_next inv.counted sorted hjob (by
        simp only [Program.keys, List.mem_append, List.mem_map] at hm ⊢
        exact .inl (hm.elim (fun h => .inl (.inr ⟨m, h, rfl⟩)) fun h => .inr ⟨m, h, rfl⟩))
    have hheld : ∀ m ∈ s.channel ++ s.ready, below m.key
        ((pre ++ .executing s.budget.next :: post).flatMap P.workerKeys) =
        below m.key (P.held s) := fun m hm => by
      have := later m hm
      rcases P.asking_eq with ha | ha <;> rw [ha] at here <;>
        simp only [held, here, List.flatMap_append, List.flatMap_cons, below_append, workerKeys,
          keyAt, hjob, Option.map_some, Option.toList_some, below_cons, below_nil] <;>
        simp [Nat.not_lt_of_lt this]
    refine ⟨fun m hm => ?_, hchannel.mono fun m hm => ?_⟩
    · have := hready m hm
      simp only [moving, below_append] at this ⊢
      rwa [held, hheld m (List.mem_append_right _ hm)]
    · exact Nat.le_of_eq (hheld m (List.mem_append_left _ hm))
  case stop here none_left =>
    rcases P.asking_eq with ha | ha <;> rw [ha] at here <;>
      exact ⟨by simpa [moving, held, here, workerKeys] using hready,
        by simpa [held, here, workerKeys] using hchannel⟩
  case receiveStage here looking queue =>
    rcases looking with rfl | rfl <;>
      exact ⟨by simpa [moving, held, here, workerKeys] using hready,
        by simpa [held, here, workerKeys] using hchannel⟩
  case complete job value here job_eq result =>
    exact ⟨by simpa [moving, held, here, workerKeys, keyAt, job_eq] using hready,
      by simpa [held, here, workerKeys, keyAt, job_eq] using hchannel⟩
  case send pre post message here open_channel =>
    have moves : ∀ k, below k (P.held s) = below k ((pre ++ .idle :: post).flatMap P.workerKeys) +
        if message.key < k then 1 else 0 := fun k => by
      simp only [held, here, List.flatMap_append, List.flatMap_cons, below_append, workerKeys,
        below_cons, below_nil, List.nil_append]
      omega
    refine ⟨fun m hm => ?_, hchannel.send moves ?_⟩
    · have hold := hready m hm
      have hmove := moves m.key
      rw [moving, below_append] at hold ⊢
      simp only [held, List.map_append, List.map_cons, List.map_nil, below_append, below_cons,
        below_nil] at hold hmove ⊢
      omega
    · have hcount := phased.count
      have hpre := held_length_le (P := P) pre
      have hpost := held_length_le (P := P) post
      rw [here, List.length_append, List.length_cons] at hcount
      simp only [held, List.flatMap_append, List.flatMap_cons, workerKeys, List.nil_append,
        List.length_append]
      omega
  case receive key message rest _ waiting missing queue =>
    rw [queue] at hchannel
    refine ⟨fun m hm => ?_, hchannel.2⟩
    rcases List.mem_cons.mp hm with rfl | hm
    · exact hchannel.1
    · have := hready m hm
      simp only [moving, held, queue, List.map_cons, below_append, below_cons] at this ⊢
      omega
  case discardBefore key _ waiting =>
    exact ⟨fun m hm => hready m (List.mem_filter.mp hm).1, hchannel⟩
  case take message pre post _ waiting here =>
    refine ⟨fun m hm => hready m ?_, hchannel⟩
    rw [here]
    exact (List.mem_append.mp hm).elim (List.mem_append_left _) fun h =>
      List.mem_append_right _ (List.mem_cons_of_mem _ h)
  case takePrimary message pre post _ waiting here =>
    refine ⟨fun m hm => hready m ?_, hchannel⟩
    rw [here]
    exact (List.mem_append.mp hm).elim (List.mem_append_left _) fun h =>
      List.mem_append_right _ (List.mem_cons_of_mem _ h)
  case sendFails closed => exact absurd running closed
  case finish => cases running
  all_goals
    first
    | exact ⟨hready, hchannel⟩
    | (refine ⟨?_, ?_⟩ <;> simp_all [moving, held, workerKeys])

/-- What a state of a run has to do with the coordinator alone: fewer than `n` of the jobs before
a taken one are on their way, and also fewer than `n` are left once the coordinator has discarded
up to there. -/
structure Tied (P : Program T O S Q R σ) (n : Nat) (w : Sweep σ) (s : State O S Q R σ) : Prop where
  consumer : w.consumer = s.consumer
  taken : ∀ k ∈ w.taken, k ∈ s.consumed
  consumed : ∀ k ∈ s.consumed, k ∈ w.taken ∨ k < w.passed
  executed : ∀ k ∈ s.consumed, ∃ job ∈ P.jobs, job.key = k ∧ P.panics job = false
  moving : ∀ k ∈ w.taken, below k (P.moving s) < n
  pending : ∀ k ∈ w.taken, k < w.passed → below k (P.pending s) < n

private theorem tied_init : P.Tied n ⟨start, [], 0⟩ (P.init n start) := by
  constructor <;> simp [init]

/-- Nothing is charged but what jobs hold. -/
structure Plain (s : State O S Q R σ) : Prop where
  leases : s.leases = []
  stageJobs : s.stageJobs = []
  submitted : s.submitted = []

private theorem Sweeps.plain_step (h : P.Sweeps start rank) (plain : Plain s) (step : P.Step s t) :
    Plain t := by
  obtain ⟨hleases, hjobs, hsubmitted⟩ := plain
  have hop := h.op s.consumer
  cases step
  case takePrimary waiting _ => simp [waiting] at hop
  case retire waiting _ => simp [waiting] at hop
  case submit waiting _ => simp [waiting] at hop
  case receiveStage queue => simp [hjobs] at queue
  all_goals exact ⟨hleases, hjobs, hsubmitted⟩

theorem executed_of_sound {m : Message O} (sound : P.Sound m) :
    ∃ job ∈ P.jobs, job.key = m.key ∧ P.panics job = false := by
  obtain ⟨job, hmem, hkey, hexec, -⟩ := sound
  exact ⟨job, hmem, hkey, by rw [panics, hexec]; rfl⟩

private theorem Tied.of_same {w : Sweep σ} (h : P.Tied n w s) (consumer : t.consumer = s.consumer)
    (consumed : t.consumed = s.consumed) (moving : ∀ k ∈ w.taken,
      below k (P.moving t) ≤ below k (P.moving s)) (pending : ∀ k ∈ w.taken,
      below k (P.pending t) ≤ below k (P.pending s)) : P.Tied n w t where
  consumer := h.consumer.trans consumer.symm
  taken := consumed ▸ h.taken
  consumed := consumed ▸ h.consumed
  executed := consumed ▸ h.executed
  moving k hk := Nat.lt_of_le_of_lt (moving k hk) (h.moving k hk)
  pending k hk hlt := Nat.lt_of_le_of_lt (pending k hk) (h.pending k hk hlt)

private theorem Tied.grant {w : Sweep σ} (h : P.Tied n w s) (hs : P.Sweeps start rank)
    (inv : P.Invariant start s) {pre post : List (Worker O S Q)} {budget : Budget}
    (here : s.workers = pre ++ P.asking :: post) {job : Job T}
    (found : P.jobs[s.budget.next]? = some job) :
    P.Tied n w { s with budget, workers := pre ++ .executing s.budget.next :: post } := by
  -- the job granted lies behind all that is held
  have hheld : ∀ k ∈ w.taken,
      below k ((pre ++ .executing s.budget.next :: post).flatMap P.workerKeys) =
        below k (P.held s) := fun k hk => by
    have := pending_lt_next inv.counted hs.keys_sorted found (show k ∈ P.keys s by
      rw [Program.keys]
      exact List.mem_append_right _ (h.taken k hk))
    rcases P.asking_eq with ha | ha <;> rw [ha] at here <;>
      simp only [held, here, List.flatMap_append, List.flatMap_cons, below_append, workerKeys,
        keyAt, found, Option.map_some, Option.toList_some, below_cons, below_nil] <;>
      simp [Nat.not_lt_of_lt this]
  refine h.of_same rfl rfl (fun k hk => ?_) fun k hk => ?_ <;>
    simp only [Program.pending, Program.moving, below_append] <;> rw [held, hheld k hk]

private theorem Tied.discard {w : Sweep σ} (h : P.Tied n w s) (inv : P.Invariant start s)
    (key : Nat) (budget : Budget) :
    P.Tied n { w with consumer := P.consumer.after w.consumer, passed := max w.passed key }
      { s with
        ready := s.ready.filter fun m => !decide (m.key < key)
        budget
        consumer := P.consumer.after s.consumer
        consumed := (s.ready.filter fun m => decide (m.key < key)).map Message.key ++ s.consumed } := by
  have kept : ∀ k, below k ((s.ready.filter fun m => !decide (m.key < key)).map Message.key) ≤
      below k (s.ready.map Message.key) := fun k =>
    (List.filter_sublist.map Message.key).countP_le
  refine ⟨congrArg P.consumer.after h.consumer, fun k hk => ?_, fun k hk => ?_, fun k hk => ?_,
    h.moving, fun k hk hlt => ?_⟩
  · exact List.mem_append_right _ (h.taken k hk)
  · rcases List.mem_append.mp hk with hk | hk
    · obtain ⟨m, hm, rfl⟩ := List.mem_map.mp hk
      have : m.key < key := by simpa using (List.mem_filter.mp hm).2
      exact .inr (lt_max_of_lt_right this)
    · exact (h.consumed k hk).imp_right lt_max_of_lt_left
  · rcases List.mem_append.mp hk with hk | hk
    · obtain ⟨m, hm, rfl⟩ := List.mem_map.mp hk
      exact executed_of_sound (sound_of_ready inv.tracked (List.mem_filter.mp hm).1)
    · exact h.executed k hk
  · rcases lt_max_iff.mp hlt with hlt | hlt
    · have := h.pending k hk hlt
      have := kept k
      simp only [Program.pending, Program.moving, held, below_append] at *
      omega
    · have hzero : below k ((s.ready.filter fun m => !decide (m.key < key)).map Message.key) = 0 := by
        refine List.countP_eq_zero.mpr fun k' hk' => ?_
        obtain ⟨m, hm, rfl⟩ := List.mem_map.mp hk'
        have : ¬ m.key < key := by simpa using (List.mem_filter.mp hm).2
        simp only [decide_eq_true_eq]
        omega
      have := h.moving k hk
      simp only [Program.pending, Program.moving, held, below_append] at *
      omega

private theorem Tied.take {w : Sweep σ} (h : P.Tied n w s) (late : P.Late n s)
    {message : Message O} {pre post : List (Message O)} (here : s.ready = pre ++ message :: post)
    (sound : P.Sound message) (order : P.InOrder w message.key) (budget : Budget) :
    P.Tied n
      { w with
        consumer := P.consumer.afterTake w.consumer message.value, taken := message.key :: w.taken }
      { s with
        ready := pre ++ post
        budget
        consumer := P.consumer.afterTake s.consumer message.value
        consumed := message.key :: s.consumed } := by
  have hmem : message ∈ s.ready := by simp [here]
  have fewer : ∀ k, below k ((pre ++ post).map Message.key) ≤ below k (s.ready.map Message.key) :=
    fun k => by
      simp only [here, List.map_append, List.map_cons, below_append, below_cons]
      omega
  refine ⟨congrArg (P.consumer.afterTake · message.value) h.consumer, fun k hk => ?_,
    fun k hk => ?_, fun k hk => ?_, fun k hk => ?_, fun k hk hlt => ?_⟩
  · exact List.mem_cons.mpr ((List.mem_cons.mp hk).imp_right (h.taken k))
  · rcases List.mem_cons.mp hk with rfl | hk
    · exact .inl List.mem_cons_self
    · exact (h.consumed k hk).imp_left (List.mem_cons_of_mem _)
  · rcases List.mem_cons.mp hk with rfl | hk
    · exact executed_of_sound sound
    · exact h.executed k hk
  · rcases List.mem_cons.mp hk with rfl | hk
    · exact late.ready message hmem
    · exact h.moving k hk
  · rcases List.mem_cons.mp hk with rfl | hk
    · exact absurd hlt (Nat.not_lt_of_le order.passed)
    · have := h.pending k hk hlt
      have := fewer k
      simp only [Program.pending, Program.moving, held, below_append] at *
      omega

private theorem Tied.step {w : Sweep σ} (hs : P.Sweeps start rank)
    (alone : Reaches P.Sweeping ⟨start, [], 0⟩ w) (h : P.Tied n w s) (late : P.Late n s)
    (inv : P.Invariant start s) (step : P.Step s t) (running : t.finished = none) :
    ∃ w', Reaches P.Sweeping ⟨start, [], 0⟩ w' ∧ P.Tied n w' t := by
  have hop := hs.op s.consumer
  cases step
  case grant pre post index budget here room =>
    obtain ⟨-, rfl, job, hjob, -, rfl⟩ := P.request_eq_ready.mp room
    exact ⟨w, alone, h.grant hs inv here hjob⟩
  case stop here none_left =>
    rcases P.asking_eq with ha | ha <;> rw [ha] at here <;>
      exact ⟨w, alone, h.of_same rfl rfl
        (by simp [Program.moving, held, here, workerKeys])
        (by simp [Program.pending, Program.moving, held, here, workerKeys])⟩
  case receiveStage staged _ _ _ => simp [hs.unstaged] at staged
  case complete job value here job_eq result =>
    exact ⟨w, alone, h.of_same rfl rfl
      (by simp [Program.moving, held, here, workerKeys, keyAt, job_eq])
      (by simp [Program.pending, Program.moving, held, here, workerKeys, keyAt, job_eq])⟩
  case receive key message rest _ waiting missing queue =>
    refine ⟨w, alone, h.of_same rfl rfl (fun k _ => ?_) fun k _ => ?_⟩ <;>
      simp only [Program.pending, Program.moving, held, queue, List.map_cons, below_append,
        below_cons] <;> omega
  case discardBefore key _ waiting =>
    exact ⟨_, alone.tail (.discardBefore (h.consumer ▸ waiting)), h.discard inv key _⟩
  case take message pre post _ waiting here =>
    have hsound := sound_of_ready inv.tracked (show message ∈ s.ready by simp [here])
    have asked := h.consumer ▸ waiting
    have hnext := h.take late here hsound (hs.asks w message.key alone asked)
      (s.budget.retire message.retained)
    obtain ⟨job, hjob, hkey, hexec, -⟩ := hsound
    rw [← hkey] at hnext asked
    exact ⟨_, alone.tail (.take asked hjob hexec), hkey ▸ hnext⟩
  case compute _ waiting =>
    exact ⟨_, alone.tail (.compute (h.consumer ▸ waiting)), congrArg P.consumer.after h.consumer,
      h.taken, h.consumed, h.executed, h.moving, h.pending⟩
  case takePrimary waiting _ => simp [waiting] at hop
  case retire waiting _ => simp [waiting] at hop
  case submit waiting _ => simp [waiting] at hop
  case takeStage waiting _ => simp [waiting] at hop
  case sendFails closed => exact absurd running closed
  case finish => cases running
  case send pre post message here _ =>
    refine ⟨w, alone, h.of_same rfl rfl (fun k _ => ?_) fun k _ => ?_⟩ <;>
      simp only [Program.pending, Program.moving, held, here, List.map_append, List.map_cons,
        List.map_nil, List.flatMap_append, List.flatMap_cons, workerKeys, below_append, below_cons,
        below_nil] <;> omega
  all_goals
    refine ⟨w, alone, h.of_same rfl rfl (fun k _ => Nat.le_of_eq ?_) fun k _ => Nat.le_of_eq ?_⟩ <;>
      simp_all [Program.pending, Program.moving, held, workerKeys]

/-- Those of the jobs whose results have not left the pipeline. -/
def unconsumed (s : State O S Q R σ) (jobs : List (Job T)) : List (Job T) :=
  jobs.filter fun job => decide (job.key ∉ s.consumed)

/-- The charge of the job with this key. -/
private def chargeAt (P : Program T O S Q R σ) (key : Nat) : Nat :=
  ((P.jobs.find? fun job => decide (job.key = key)).map P.charge).getD 0

section Charges

variable (nodup : (P.jobs.map Job.key).Nodup) (inv : P.Invariant start s)
include nodup

private theorem chargeAt_key {job : Job T} (mem : job ∈ P.jobs) :
    chargeAt P job.key = P.charge job := by
  cases hf : P.jobs.find? fun j => decide (j.key = job.key) with
  | none => simpa using List.find?_eq_none.mp hf job mem
  | some job' =>
    have hkey : job'.key = job.key := by simpa using List.find?_some hf
    obtain rfl : job' = job :=
      List.inj_on_of_nodup_map nodup (List.mem_of_find?_eq_some hf) mem hkey
    rw [chargeAt, hf, Option.map_some, Option.getD_some]

private theorem chargeAt_sound {m : Message O} (sound : P.Sound m) :
    chargeAt P m.key = m.retained := by
  obtain ⟨job, hmem, hkey, hexec, hret⟩ := sound
  rw [← hkey, chargeAt_key nodup hmem, charge, hexec, hret]

omit nodup in
private theorem charge_le (job : Job T) : P.charge job ≤ job.reservation := by
  rw [charge]
  split
  · exact Nat.min_le_right _ _
  · exact Nat.le_refl _

private theorem messages_charge (ms : List (Message O)) (sound : ∀ m ∈ ms, P.Sound m) :
    (ms.map Message.retained).sum = ((ms.map Message.key).map (chargeAt P)).sum := by
  rw [List.map_map]
  exact congrArg List.sum (List.map_congr_left fun m hm => (chargeAt_sound nodup (sound m hm)).symm)

include inv

/-- What a worker holds is charged at least as it will be in the end, and exactly so unless it is
still at it. -/
private theorem worker_charge (phased : P.Phased n s) (plain : Plain s) {w : Worker O S Q}
    (mem : w ∈ s.workers) :
    ((P.workerKeys w).map (chargeAt P)).sum ≤ P.workerBytes w ∧
      ((∀ index, w ≠ .executing index) →
        P.workerBytes w = ((P.workerKeys w).map (chargeAt P)).sum) ∧
      w.slots = (P.workerKeys w).length := by
  cases w with
  | executing index =>
    have hlt := Nat.lt_of_lt_of_le (inv.tracked.executing index mem) inv.counted.next_le
    simp only [workerKeys, workerBytes, keyAt, reservationAt, List.getElem?_eq_getElem hlt,
      Option.map_some, Option.toList_some, Option.getD_some, List.map_cons, List.map_nil,
      List.sum_cons, List.sum_nil, chargeAt_key nodup (List.getElem_mem hlt), Worker.slots,
      List.length_cons, List.length_nil]
    exact ⟨charge_le _, fun h => absurd rfl (h index), trivial⟩
  | panicked index =>
    obtain ⟨job, hjob, hnone⟩ := phased.panicked index mem
    simp [workerKeys, workerBytes, keyAt, reservationAt, hjob,
      chargeAt_key nodup (List.mem_of_getElem? hjob), charge, hnone, Worker.slots]
  | sending m =>
    have sound : P.Sound m := inv.tracked.sound m (by
      simp only [State.messages, List.mem_append, List.mem_flatMap]
      exact .inl (.inl ⟨_, mem, List.mem_singleton_self m⟩))
    simp [workerKeys, workerBytes, chargeAt_sound nodup sound, Worker.slots]
  | staging m =>
    have := inv.tracked.stageJobs m (by
      simp only [State.stageMessages, List.mem_append, List.mem_flatMap]
      exact .inr ⟨_, mem, List.mem_singleton_self m⟩)
    simp [plain.submitted] at this
  | stagePanicked m =>
    have := (phased.stagePanicked m mem).1
    simp [plain.submitted] at this
  | idle | polled | stageSending | stopped =>
    simp [workerKeys, workerBytes, Worker.slots]

private theorem workers_charge (phased : P.Phased n s) (plain : Plain s)
    (workers : List (Worker O S Q)) (sub : workers ⊆ s.workers) :
    ((workers.flatMap P.workerKeys).map (chargeAt P)).sum ≤ (workers.map P.workerBytes).sum ∧
      ((∀ index, .executing index ∉ workers) → (workers.map P.workerBytes).sum =
        ((workers.flatMap P.workerKeys).map (chargeAt P)).sum) ∧
      (workers.map Worker.slots).sum = (workers.flatMap P.workerKeys).length := by
  induction workers with
  | nil => simp
  | cons w workers ih =>
    obtain ⟨hle, heq, hslots⟩ := ih fun x hx => sub (List.mem_cons_of_mem _ hx)
    obtain ⟨wle, weq, wslots⟩ := worker_charge nodup inv phased plain (sub List.mem_cons_self)
    simp only [List.flatMap_cons, List.map_append, List.sum_append, List.map_cons, List.sum_cons,
      List.length_append]
    refine ⟨Nat.add_le_add wle hle, fun none => ?_, by rw [wslots, hslots]⟩
    rw [weq fun index h => none index (h ▸ List.mem_cons_self),
      heq fun index h => none index (List.mem_cons_of_mem _ h)]

omit nodup in
private theorem pending_perm (nodup : (P.jobs.map Job.key).Nodup) :
    (P.pending s).Perm ((unconsumed s (P.jobs.take s.budget.next)).map Job.key) := by
  refine List.perm_iff_count.mpr fun k => ?_
  have hk := inv.counted.keys k
  have htake : ((P.jobs.take s.budget.next).map Job.key).Nodup :=
    nodup.sublist ((List.take_sublist ..).map _)
  have hle := List.nodup_iff_count_le_one.mp htake k
  have hsplit : (P.keys s).count k = (P.pending s).count k + s.consumed.count k := by
    simp only [Program.keys, Program.pending, Program.moving, held, List.count_append]
  have hfilter : (unconsumed s (P.jobs.take s.budget.next)).map Job.key =
      ((P.jobs.take s.budget.next).map Job.key).filter fun key => decide (key ∉ s.consumed) := by
    rw [unconsumed, List.filter_map]; rfl
  rw [hfilter]
  by_cases hc : k ∈ s.consumed
  · have hzero : (((P.jobs.take s.budget.next).map Job.key).filter
        fun key => decide (key ∉ s.consumed)).count k = 0 :=
      List.count_eq_zero.mpr fun hmem => by simpa [hc] using (List.mem_filter.mp hmem).2
    have := List.count_pos_iff.mpr hc
    omega
  · rw [List.count_filter (by simpa using hc), ← hk, hsplit, List.count_eq_zero.mpr hc]
    rfl

/-- The budget has charged at least what the admitted jobs that are not consumed keep charged, and
not more once no job is executed; each of them takes one slot. -/
theorem charged (phased : P.Phased n s) (plain : Plain s) :
    ((unconsumed s (P.jobs.take s.budget.next)).map P.charge).sum ≤ s.budget.reserved ∧
      ((∀ index, .executing index ∉ s.workers) → s.budget.reserved =
        ((unconsumed s (P.jobs.take s.budget.next)).map P.charge).sum) ∧
      s.budget.active = (unconsumed s (P.jobs.take s.budget.next)).length := by
  obtain ⟨hle, heq, hslots⟩ :=
    workers_charge nodup inv phased plain s.workers (List.Subset.refl _)
  have hsum : ((unconsumed s (P.jobs.take s.budget.next)).map P.charge).sum =
      ((P.pending s).map (chargeAt P)).sum := by
    rw [((pending_perm inv nodup).map (chargeAt P)).sum_eq, List.map_map]
    exact congrArg List.sum (List.map_congr_left fun job hj => (chargeAt_key nodup
      (List.mem_of_mem_take (List.mem_filter.mp hj).1)).symm)
  have hchannel := messages_charge nodup s.channel fun m hm =>
    inv.tracked.sound m (by simp [State.messages, hm])
  have hready := messages_charge nodup s.ready fun m hm => sound_of_ready inv.tracked hm
  have hpending : ((P.pending s).map (chargeAt P)).sum =
      ((P.held s).map (chargeAt P)).sum + (s.channel.map Message.retained).sum +
        (s.ready.map Message.retained).sum := by
    simp only [Program.pending, Program.moving, List.map_append, List.sum_append, hchannel, hready]
  have hbytes : s.budget.reserved = (s.workers.map P.workerBytes).sum +
      (s.channel.map Message.retained).sum + (s.ready.map Message.retained).sum := by
    rw [inv.accounted.bytes, chargedBytes, plain.leases, plain.stageJobs]
    rfl
  have hlength := (pending_perm inv nodup).length_eq
  refine ⟨?_, fun settled => ?_, ?_⟩
  · rw [hsum, hpending, hbytes, held]
    omega
  · rw [hsum, hpending, hbytes, held, heq settled]
  · rw [List.length_map] at hlength
    rw [← hlength, inv.accounted.slots, State.chargedSlots, plain.leases, plain.stageJobs, hslots]
    simp only [Program.pending, Program.moving, held, List.length_append, List.length_map,
      List.length_nil]
    omega

end Charges

section Answered

variable (hs : P.Sweeps start rank) (inv : P.Invariant start s) (phased : P.Phased n s)
include hs

theorem Sweeps.keys_nodup : (P.jobs.map Job.key).Nodup := hs.keys_sorted.imp Nat.ne_of_lt

include inv

theorem Sweeps.nodup_keys : (P.keys s).Nodup := by
  refine List.nodup_iff_count_le_one.mpr fun k => ?_
  rw [inv.counted.keys]
  exact List.nodup_iff_count_le_one.mp
    (hs.keys_nodup.sublist ((List.take_sublist ..).map _)) k

omit hs in
private theorem mem_admitted {key : Nat} (mem : key ∈ P.keys s) :
    key ∈ (P.jobs.take s.budget.next).map Job.key := by
  rwa [← List.count_pos_iff, ← inv.counted.keys, List.count_pos_iff]

omit hs in
theorem admitted_lt (sorted : (P.jobs.map Job.key).Pairwise (· < ·)) {pre post : List (Job T)}
    {job : Job T} (split : P.jobs = pre ++ job :: post) (later : s.budget.next ≤ pre.length)
    {key : Nat} (mem : key ∈ P.keys s) : key < job.key := by
  obtain ⟨earlier, hmem, rfl⟩ := List.mem_map.mp (mem_admitted inv mem)
  rw [split, List.take_append_of_le_length later] at hmem
  exact key_lt_of_sorted sorted split (List.mem_of_mem_take hmem)

include phased

/-- While the coordinator waits for a job that is not admitted and no worker is busy, one looks for
work, unless as many jobs as there are workers have panicked. -/
theorem Sweeps.exists_idle (running : s.finished = none) {pre post : List (Job T)} {job : Job T}
    (split : P.jobs = pre ++ job :: post) (later : s.budget.next ≤ pre.length)
    (plain : Plain s) (quiet : ∀ w ∈ s.workers, w.busy = false)
    (staffed : (P.jobs.filter fun j => decide (j.key < job.key) && P.panics j).length < n) :
    ∃ w ∈ s.workers, w = .idle ∨ w = .polled := by
  by_contra idle
  have fallen : ∀ w ∈ s.workers, ∃ index, w = .panicked index := fun w hw => by
    have := quiet w hw
    cases w with
    | panicked index => exact ⟨index, rfl⟩
    | stopped =>
      have := (phased.stopped hw running).2
      rw [split, List.length_append, List.length_cons] at this
      omega
    | stagePanicked message =>
      have := (phased.stagePanicked message hw).1
      simp [plain.submitted] at this
    | idle => exact absurd ⟨_, hw, .inl rfl⟩ idle
    | polled => exact absurd ⟨_, hw, .inr rfl⟩ idle
    | executing | sending | staging | stageSending => cases this
  have job_of : ∀ index, .panicked index ∈ s.workers → ∃ j, P.jobs[index]? = some j ∧
      P.panics j = true := fun index hw => by
    obtain ⟨j, hj, hnone⟩ := phased.panicked index hw
    exact ⟨j, hj, by rw [panics, hnone]; rfl⟩
  have hlength : (P.held s).length = n := by
    rw [← phased.count, held, List.length_flatMap, List.map_congr_left (g := fun _ => 1)]
    · simp
    · intro w hw
      obtain ⟨index, rfl⟩ := fallen w hw
      obtain ⟨j, hj, -⟩ := job_of index hw
      simp [workerKeys, keyAt, hj]
  have hnodup : (P.held s).Nodup :=
    (hs.nodup_keys inv).sublist (by
      simp only [Program.keys, List.append_assoc]
      exact List.sublist_append_left _ _)
  have hsub : P.held s ⊆
      (P.jobs.filter fun j => decide (j.key < job.key) && P.panics j).map Job.key := fun key hk => by
    have hlt := admitted_lt inv hs.keys_sorted split later (show key ∈ P.keys s by
      simp only [Program.keys, List.append_assoc]
      exact List.mem_append_left _ hk)
    obtain ⟨w, hw, hk⟩ := List.mem_flatMap.mp hk
    obtain ⟨index, rfl⟩ := fallen w hw
    obtain ⟨j, hj, hpanics⟩ := job_of index hw
    simp only [workerKeys, keyAt, hj, Option.map_some, Option.toList_some,
      List.mem_singleton] at hk
    exact List.mem_map.mpr ⟨j, List.mem_filter.mpr ⟨List.mem_of_getElem? hj,
      by simp [← hk, hlt, hpanics]⟩, hk.symm⟩
  have := (List.subperm_of_subset hnodup hsub).length_le
  rw [List.length_map] at this
  omega

omit phased in
/-- Of the skipped jobs, those that are not consumed are fewer than there are workers. -/
theorem Sweeps.lagging_lt {w : Sweep σ} {key : Nat} (order : P.InOrder w key) (tied : P.Tied n w s)
    (threads : 0 < n) :
    (P.jobs.filter (P.lagging w fun k => decide (k ∉ s.consumed))).length < n := by
  generalize hlag : P.jobs.filter (P.lagging w fun k => decide (k ∉ s.consumed)) = lag
  have lag_of : ∀ job ∈ lag, job ∈ P.jobs ∧ w.skipped job = true ∧ job.key ∉ s.consumed :=
    fun job hj => by
      rw [← hlag] at hj
      obtain ⟨hmem, hj⟩ := List.mem_filter.mp hj
      rw [lagging, Bool.and_eq_true, Bool.or_eq_true, decide_eq_true_eq] at hj
      refine ⟨hmem, hj.1, hj.2.elim id fun hpanics hc => ?_⟩
      obtain ⟨other, hother, hkey, hruns⟩ := tied.executed _ hc
      obtain rfl := List.inj_on_of_nodup_map hs.keys_nodup hother hmem hkey
      rw [hpanics] at hruns
      cases hruns
  have before : ∀ job ∈ lag, ∃ k ∈ w.taken, job.key < k := fun job hj => by
    obtain ⟨-, hskipped, -⟩ := lag_of job hj
    simp only [Sweep.skipped, Sweep.ahead, Bool.and_eq_true, decide_eq_true_eq,
      Bool.not_eq_true', List.all_eq_false] at hskipped
    obtain ⟨hnot, k, hk, hle⟩ := hskipped
    have : job.key ≠ k := fun h => hnot (h ▸ hk)
    exact ⟨k, hk, by omega⟩
  rcases List.eq_nil_or_concat lag with hnil | ⟨front, last, hconcat⟩
  · rw [hnil]
    exact threads
  · have hlast : last ∈ lag := by rw [hconcat]; simp
    -- the greatest taken key; all that lags lies below it
    obtain ⟨k, hk, -⟩ := before last hlast
    obtain ⟨top, htop, hmax⟩ : ∃ top ∈ w.taken, ∀ k ∈ w.taken, k ≤ top :=
      ⟨w.taken.max (List.ne_nil_of_mem hk), List.max_mem _, fun k hk => List.le_max_of_mem hk⟩
    have under : ∀ job ∈ lag, job.key < top := fun job hj => by
      obtain ⟨k, hk, hlt⟩ := before job hj
      exact Nat.lt_of_lt_of_le hlt (hmax k hk)
    have hpassed : top < w.passed := (order.cleared top htop).resolve_right fun all => by
      obtain ⟨hmem, -, hnot⟩ := lag_of last hlast
      exact hnot (tied.taken _ (all last hmem (under last hlast)))
    have hnodup : (lag.map Job.key).Nodup := by
      rw [← hlag]
      exact hs.keys_nodup.sublist (List.filter_sublist.map _)
    have hsub : lag.map Job.key ⊆ (P.pending s).filter fun k => decide (k < top) := fun k hk => by
      obtain ⟨job, hj, rfl⟩ := List.mem_map.mp hk
      obtain ⟨hmem, -, hnot⟩ := lag_of job hj
      refine List.mem_filter.mpr ⟨?_, by simpa using under job hj⟩
      -- the taken job is admitted, so the one before it is, too
      obtain ⟨pre, post, split⟩ := List.append_of_mem hmem
      have hadmitted : pre.length < s.budget.next := by
        refine Nat.lt_of_not_le fun later => ?_
        have := admitted_lt inv hs.keys_sorted split later (show top ∈ P.keys s by
          rw [Program.keys]
          exact List.mem_append_right _ (tied.taken top htop))
        have := under job hj
        omega
      rw [(pending_perm inv hs.keys_nodup).mem_iff]
      exact List.mem_map_of_mem (List.mem_filter.mpr
        ⟨mem_take_of_lt split hadmitted, by simpa using hnot⟩)
    have hle := (List.subperm_of_subset hnodup hsub).length_le
    rw [List.length_map, ← List.countP_eq_length_filter] at hle
    exact Nat.lt_of_le_of_lt hle (tied.pending top htop hpassed)

/-- In a state where nothing is on its way, the next job fits if the question is served. -/
theorem Sweeps.request_ready {w : Sweep σ} {key : Nat} (order : P.InOrder w key)
    (tied : P.Tied n w s) (served : P.Served n w key) (plain : Plain s)
    (running : s.finished = none) (settled : ∀ index, .executing index ∉ s.workers)
    {pre post : List (Job T)} {job : Job T} (split : P.jobs = pre ++ job :: post)
    (key_eq : job.key = key) (later : s.budget.next ≤ pre.length) :
    ∃ index budget, P.request s.budget = .ready index budget := by
  have hlt : s.budget.next < P.jobs.length := by
    rw [split, List.length_append, List.length_cons]; omega
  have hnext := List.getElem?_eq_getElem hlt
  have splitNext : P.jobs = P.jobs.take s.budget.next ++
      P.jobs[s.budget.next] :: P.jobs.drop (s.budget.next + 1) := by
    rw [← List.drop_eq_getElem_cons, List.take_append_drop]
  have hle : P.jobs[s.budget.next].key ≤ key := by
    rcases Nat.lt_or_ge s.budget.next pre.length with hin | hge
    · refine Nat.le_of_lt (key_eq ▸ key_lt_of_sorted hs.keys_sorted split ?_)
      have : P.jobs[s.budget.next] = pre[s.budget.next] := by
        rw [List.getElem_of_eq split, List.getElem_append_left hin]
      exact this ▸ List.getElem_mem hin
    · have heq : s.budget.next = pre.length := Nat.le_antisymm later hge
      have : P.jobs[s.budget.next] = job := by
        rw [List.getElem_of_eq split, List.getElem_append_right hge]
        simp [heq]
      exact Nat.le_of_eq (this ▸ key_eq)
  have hahead : w.ahead P.jobs[s.budget.next] = true := by
    rw [Sweep.ahead, List.all_eq_true]
    intro k hk
    simpa using pending_lt_next inv.counted hs.keys_sorted hnext (show k ∈ P.keys s by
      rw [Program.keys]
      exact List.mem_append_right _ (tied.taken k hk))
  obtain ⟨hactive, hbytes⟩ := served.room (fun k => decide (k ∉ s.consumed))
    (hs.lagging_lt inv order tied (Nat.zero_lt_of_lt served.staffed)) _ _ _ splitNext hle hahead
  -- what is charged now is charged in the worst case, too
  have hsub : (unconsumed s (P.jobs.take s.budget.next)).Sublist
      (P.outstanding w (fun k => decide (k ∉ s.consumed)) (P.jobs.take s.budget.next)) := by
    refine List.monotone_filter_right _ fun j hj => ?_
    rw [decide_eq_true_eq] at hj
    have hnot : j.key ∉ w.taken := fun h => hj (tied.taken _ h)
    simp only [lagging, Sweep.skipped, hj, hnot, not_false_eq_true, decide_true, Bool.true_and,
      Bool.true_or, Bool.and_true]
    exact Bool.or_not_self _
  obtain ⟨-, hreserved, hslots⟩ := charged hs.keys_nodup inv phased plain
  have hsum := (hsub.map P.charge).sum_le_sum fun _ _ => Nat.zero_le _
  have hlength := hsub.length_le
  exact ⟨_, _, P.request_eq_ready.mpr ⟨by simpa [running] using inv.tracked.cancelled, rfl, _,
    hnext, Budget.fits_iff.mpr ⟨by rw [hslots, inv.accounted.maxActive]; omega, by
      rw [hreserved settled, inv.accounted.limit]; omega⟩, rfl⟩⟩

private theorem Sweeps.served_step {w : Sweep σ} {key : Nat} (order : P.InOrder w key)
    (tied : P.Tied n w s) (served : P.Served n w key) (plain : Plain s)
    (running : s.finished = none) (waiting : P.consumer.op s.consumer = .take key) :
    ∃ t, P.Step s t := by
  by_cases admitted : key ∈ (P.jobs.take s.budget.next).map Job.key
  · refine take_step inv.counted inv.tracked phased (fun job hj hkey hnone => ?_) running
      (.inl waiting) admitted fun consumed => ?_
    · simpa [panics, hnone] using served.executes job hj hkey
    · rcases tied.consumed key consumed with h | h
      · exact Nat.lt_irrefl _ (order.behind key h)
      · exact Nat.not_lt_of_le order.passed h
  by_cases busy : ∃ w ∈ s.workers, w.busy = true
  · obtain ⟨worker, hw, hb⟩ := busy
    exact busy_step inv.tracked inv.counted hw hb
  have quiet : ∀ w ∈ s.workers, w.busy = false := by simpa using busy
  obtain ⟨job, hj, key_eq⟩ := List.mem_map.mp order.mem
  obtain ⟨pre, post, split⟩ := List.append_of_mem hj
  have later : s.budget.next ≤ pre.length := Nat.le_of_not_lt fun hlt =>
    admitted (List.mem_map.mpr ⟨job, mem_take_of_lt split hlt, key_eq⟩)
  obtain ⟨worker, hw, looking⟩ := hs.exists_idle inv phased running split later plain quiet
    (by rw [key_eq]; exact served.staffed)
  exact look_step phased running hw looking (.inl (hs.request_ready inv phased order tied served
    plain running (fun index h => by cases quiet _ h) split key_eq later))

end Answered

section Returns

variable (hs : P.Sweeps start rank)
include hs

/-- What every state of a run satisfies. -/
structure Swept (P : Program T O S Q R σ) (n : Nat) (start : σ) (s : State O S Q R σ) : Prop where
  inv : P.Invariant start s
  phased : P.Phased n s
  plain : Plain s
  late : s.finished = none → P.Late n s
  tied : s.finished = none → ∃ w, Reaches P.Sweeping ⟨start, [], 0⟩ w ∧ P.Tied n w s

private theorem Swept.step (h : P.Swept n start s) (step : P.Step s t) : P.Swept n start t := by
  have back : t.finished = none → s.finished = none := by
    cases step <;> simp_all
  refine ⟨h.inv.step P step, h.phased.step P h.inv.tracked step, hs.plain_step h.plain step,
    fun running => (h.late (back running)).step h.inv h.phased hs.keys_sorted step running,
    fun running => ?_⟩
  obtain ⟨w, alone, tied⟩ := h.tied (back running)
  exact tied.step hs alone (h.late (back running)) h.inv step running

theorem Sweeps.swept (run : Reaches P.Step (P.init n start) s) : P.Swept n start s :=
  run.invariant (I := P.Swept n start)
    ⟨P.invariant_init n start, P.phased_init n start, ⟨rfl, rfl, rfl⟩, fun _ => late_init,
      fun _ => ⟨_, .refl, tied_init⟩⟩ fun _ _ h step => h.step hs step

theorem Sweeps.follows_descends {w : Sweep σ} (alone : Reaches P.Sweeping ⟨start, [], 0⟩ w)
    {g g' : Ledger S σ} (same : w.consumer = g.consumer) (step : P.Follows g g') :
    rank g'.consumer < rank g.consumer := by
  have hop := hs.op g.consumer
  rw [← same] at hop ⊢
  cases step
  case compute waiting => exact same ▸ hs.descends w _ alone (.compute (same ▸ waiting))
  case take waiting mem result => exact same ▸ hs.descends w _ alone (.take (same ▸ waiting) mem result)
  case discardBefore waiting _ => exact same ▸ hs.descends w _ alone (.discardBefore (same ▸ waiting))
  case takePrimary waiting _ _ => simp [same, waiting] at hop
  case retire waiting _ => simp [same, waiting] at hop
  case submit waiting _ => simp [same, waiting] at hop
  case takeStage waiting _ _ => simp [same, waiting] at hop

/-- If every question is served, every run ends with the call returning. -/
theorem Sweeps.returns (served : ∀ w key, Reaches P.Sweeping ⟨start, [], 0⟩ w →
      P.consumer.op w.consumer = .take key → P.Served n w key) :
    Inevitable P.Step Returned (P.init n start) := by
  refine Inevitable.of_measure (I := P.Swept n start) (P.measure rank)
    (fun s t h step => h.step hs step) (fun s t h step => ?_) (fun s h open_call => ?_)
    (hs.swept .refl)
  · refine P.measure_step h.inv.tracked (fun running g follows => ?_) step
    obtain ⟨w, alone, tied⟩ := h.tied running
    exact hs.follows_descends alone tied.consumer follows
  · by_cases running : s.finished = none
    · obtain ⟨w, alone, tied⟩ := h.tied running
      have hop := hs.op s.consumer
      cases hask : P.consumer.op s.consumer with
      | done r => exact ⟨_, .finish running hask⟩
      | compute => exact ⟨_, .compute running hask⟩
      | discardBefore key => exact ⟨_, .discardBefore running hask⟩
      | take key =>
        have asked : P.consumer.op w.consumer = .take key := tied.consumer ▸ hask
        exact hs.served_step h.inv h.phased (hs.asks w key alone asked) tied
          (served w key alone asked) h.plain running hask
      | takePrimary | retire | submit | takeStage => simp [hask] at hop
    · obtain ⟨w, hw, alive⟩ : ∃ w ∈ s.workers, w.ended = false := by
        simpa only [Returned, ne_eq, running, not_false_eq_true, true_and, not_forall,
          exists_prop, Bool.not_eq_true] using open_call
      exact drain_step h.inv.tracked h.inv.counted h.phased running hw alive

end Returns

end Program

end Fbz.Pipeline
